import Pigeon.EmailImport.Sink
import Pigeon.EmailImport.Attach

/-! # Delivering one message: staged paths and destination keys

A message is fetched to `<relpath>/<uid>.eml`, its attachments are unpacked under
`<relpath>/<uid>/attachments`, and the objects go to keys made of the same components
below the sanitized email of the identity. Keys are equal exactly when their components
are, so two messages share a key only through equal components.
-/
namespace Pigeon.EmailImport

open Library Pigeon.Core Keyring

set_option autoImplicit false

structure Message where
  mailbox : Text
  delimiter : Option Text
  uidvalidity : UInt32
  uid : UInt32
  body : Bytes
deriving DecidableEq, Repr

def relativeKey (mailboxRelpath : Path) : Text :=
  let joined := ['/'].intercalate mailboxRelpath
  if joined = [] then joined else joined ++ ['/']

namespace Message

def relpath (m : Message) : Path := sanitizeMailboxPath m.mailbox m.delimiter

def uidName (m : Message) : Text := Text.showU32 m.uid

def emlName (m : Message) : Text := Text.showU32 m.uid ++ ".eml".toList

def emlPath (m : Message) : Path := m.relpath ++ [m.emlName]

def uidDir (m : Message) : Path := m.relpath ++ [m.uidName]

def attachmentsDir (m : Message) : Path := m.uidDir ++ ["attachments".toList]

def emlKey (email : Text) (m : Message) : Text :=
  sanitizeSegment email ++ '/' :: (relativeKey m.relpath ++ m.emlName)

def attachmentKey (email : Text) (m : Message) (name : Text) : Text :=
  sanitizeSegment email ++ '/' :: (relativeKey m.relpath ++ m.uidName ++ "/attachments/".toList ++ name)

def fetch (scratch : FileTree Bytes) (m : Message) : Option (FileTree Bytes) :=
  (scratch.createDirAll m.relpath).bind fun made => made.write m.emlPath m.body

def parts (parse : Bytes → Option (List MessagePart)) (m : Message) : List MessagePart := (parse m.body).getD []

end Message

/-- `deliver_one` up to the pushes: the scratch tree and the objects to push with their keys. -/
def stageObjects (parse : Bytes → Option (List MessagePart)) (email : Text) (scratch : FileTree Bytes) (m : Message) :
    FileTree Bytes × List (Path × Text) :=
  if scratch.contains m.emlPath then
    let (scratch, attachments) := extractAttachments parse scratch m.emlPath m.attachmentsDir
    (scratch, (m.emlPath, m.emlKey email) ::
      (attachments.getD []).map fun attachment => (attachment.path, m.attachmentKey email attachment.name))
  else (scratch, [])

def objectKeys (parse : Bytes → Option (List MessagePart)) (email : Text) (scratch : FileTree Bytes) (m : Message) :
    List Text :=
  (stageObjects parse email scratch m).2.map Prod.snd

namespace Message

def Fetched (m : Message) (scratch : FileTree Bytes) : Prop := scratch.lookup m.emlPath = some (.file m.body)

instance (m : Message) (scratch : FileTree Bytes) : Decidable (m.Fetched scratch) :=
  inferInstanceAs (Decidable (_ = _))

/-! ## Components of paths and keys -/

theorem not_mem_relpath (m : Message) {c : Char} (hAlphanum : c.isAlphanum = false) (hHyphen : c ≠ '-') :
    ∀ segment ∈ m.relpath, c ∉ segment := fun _ h => not_mem_sanitizeMailboxPath hAlphanum hHyphen h

theorem ne_nil_of_mem_relpath (m : Message) {segment : Text} (h : segment ∈ m.relpath) : segment ≠ [] := by
  have hKept := (List.mem_filter.mp h).2
  rintro rfl
  cases hKept

theorem not_mem_uidName (m : Message) {c : Char} (hDigit : c.isDigit = false) : c ∉ m.uidName :=
  Text.not_mem_showU32 hDigit m.uid

theorem not_mem_emlName (m : Message) {c : Char} (hDigit : c.isDigit = false) (hSuffix : c ∉ ".eml".toList) :
    c ∉ m.emlName := fun h => (List.mem_append.mp h).elim (Text.not_mem_showU32 hDigit m.uid) hSuffix

theorem emlName_injective {m other : Message} (h : m.emlName = other.emlName) : m.uid = other.uid :=
  Text.showU32_injective (List.append_cancel_right h)

theorem emlName_ne_uidName (m other : Message) : m.emlName ≠ other.uidName := by
  intro h
  have hDot : '.' ∈ m.emlName := List.mem_append_right _ (by decide)
  rw [h] at hDot
  exact other.not_mem_uidName (by decide) hDot

theorem uidName_ne_attachments (m : Message) : m.uidName ≠ "attachments".toList := by
  intro h
  have hLetter : 'a' ∈ m.uidName := by
    rw [h]
    decide
  exact m.not_mem_uidName (by decide) hLetter

theorem emlPath_eq_emlPath {m other : Message} :
    m.emlPath = other.emlPath ↔ m.relpath = other.relpath ∧ m.uid = other.uid := by
  rw [emlPath, emlPath, Path.child_inj]
  constructor
  · rintro ⟨hRelpath, hName⟩
    exact ⟨hRelpath, emlName_injective hName⟩
  · rintro ⟨hRelpath, hUid⟩
    exact ⟨hRelpath, by rw [emlName, emlName, hUid]⟩

theorem attachmentsDir_injective {m other : Message} (h : m.attachmentsDir = other.attachmentsDir) :
    m.relpath = other.relpath ∧ m.uid = other.uid := by
  obtain ⟨hRelpath, hUid⟩ := Path.child_inj.mp (Path.child_inj.mp h).1
  exact ⟨hRelpath, Text.showU32_injective hUid⟩

theorem not_mem_uidDir (m : Message) : ∀ name ∈ m.uidDir, '.' ∉ name := by
  intro name hName
  obtain hSegment | hLast := List.mem_append.mp hName
  · exact m.not_mem_relpath (by decide) (by decide) name hSegment
  · rw [List.mem_singleton.mp hLast]
    exact m.not_mem_uidName (by decide)

theorem dot_mem_emlName (m : Message) : '.' ∈ m.emlName := List.mem_append_right _ (by decide)

theorem emlPath_not_prefix (m other : Message) : ¬ m.emlPath <+: other.attachmentsDir := by
  intro hPrefix
  have hMem : m.emlName ∈ other.attachmentsDir := hPrefix.subset (List.mem_append_right _ List.mem_cons_self)
  obtain hUidDir | hLast := List.mem_append.mp hMem
  · exact other.not_mem_uidDir _ hUidDir m.dot_mem_emlName
  · have hDot := m.dot_mem_emlName
    rw [List.mem_singleton.mp hLast] at hDot
    revert hDot
    decide

def Carries (parse : Bytes → Option (List MessagePart)) (m : Message) (name : Text) : Prop :=
  ∃ part ∈ m.parts parse, ¬ part.Skipped ∧ part.sanitizedName = name

/-- The mailbox folder of `m` is the attachments folder of the other message, which carries
an attachment called like the `.eml` of `m`. -/
def AmongAttachments (parse : Bytes → Option (List MessagePart)) (m other : Message) : Prop :=
  m.relpath = other.attachmentsDir ∧ other.Carries parse m.emlName

def SharePath (parse : Bytes → Option (List MessagePart)) (m other : Message) : Prop :=
  (m.relpath = other.relpath ∧ m.uid = other.uid) ∨ m.AmongAttachments parse other ∨ other.AmongAttachments parse m

/-! ## Staging -/

theorem lookup_fetch {m : Message} {scratch fetched : FileTree Bytes} (h : m.fetch scratch = some fetched) (path : Path) :
    fetched.lookup path =
      if path = m.emlPath then some (.file m.body) else if path <+: m.relpath then some .dir else scratch.lookup path := by
  obtain ⟨made, hMade, hWrite⟩ := Option.bind_eq_some_iff.mp h
  rw [FileTree.lookup_write hWrite, FileTree.lookup_createDirAll hMade]

theorem fetched_of_fetch {m : Message} {scratch fetched : FileTree Bytes} (h : m.fetch scratch = some fetched) :
    m.Fetched fetched := by rw [Fetched, lookup_fetch h, if_pos rfl]

theorem hasNul_eq_false {name : Text} (h : '\x00' ∉ name) : FileTree.hasNul [name] = false := by
  simpa [FileTree.hasNul] using h

theorem noNul_attachmentsDir (m : Message) : ∀ name ∈ m.attachmentsDir, FileTree.hasNul [name] = false := by
  intro name hName
  simp only [attachmentsDir, uidDir, List.mem_append, List.mem_singleton] at hName
  obtain (hSegment | rfl) | rfl := hName
  · exact hasNul_eq_false (m.not_mem_relpath (by decide) (by decide) name hSegment)
  · exact hasNul_eq_false (m.not_mem_uidName (by decide))
  · decide

theorem fetch_isSome {m : Message} {scratch : FileTree Bytes}
    (hFiles : ∀ other content, other <+: m.relpath → scratch.lookup other ≠ some (.file content))
    (hEml : scratch.lookup m.emlPath ≠ some .dir) : ∃ fetched, m.fetch scratch = some fetched := by
  have hRelpath : ∀ name ∈ m.relpath, FileTree.hasNul [name] = false :=
    fun name hName => hasNul_eq_false (m.not_mem_relpath (by decide) (by decide) name hName)
  obtain ⟨made, hMade⟩ := scratch.createDirAll_isSome m.relpath hFiles hRelpath
  have hNul : FileTree.hasNul m.emlPath = false := by
    rw [FileTree.hasNul, List.any_eq_false]
    intro name hName
    obtain hSegment | hLast := List.mem_append.mp hName
    · simpa [FileTree.hasNul] using hRelpath name hSegment
    · rw [List.mem_singleton.mp hLast]
      simpa using m.not_mem_emlName (c := '\x00') (by decide) (by decide)
  refine ⟨made.put m.emlPath (.file m.body), ?_⟩
  rw [fetch, hMade, Option.bind_some, FileTree.write_eq_some]
  refine ⟨?_, ?_, hNul, rfl⟩
  · rw [emlPath, List.dropLast_concat, FileTree.lookup_createDirAll hMade, if_pos (List.prefix_refl _)]
  · rw [FileTree.lookup_createDirAll hMade, if_neg]
    · exact hEml
    · exact not_prefix_of_name m.relpath m.emlName

theorem fetch_empty (m : Message) : ∃ fetched, m.fetch FileTree.empty = some fetched := by
  apply fetch_isSome (fun other content _ => FileTree.empty_noFile other content)
  rw [FileTree.lookup_empty _ (by simp [emlPath])]
  simp

theorem passable_of_fetch {m : Message} {scratch fetched : FileTree Bytes} (h : m.fetch scratch = some fetched)
    (hFiles : ∀ other content, other <+: m.attachmentsDir → scratch.lookup other ≠ some (.file content)) :
    Passable fetched m.attachmentsDir := by
  refine ⟨fun other content hOther => ?_, m.noNul_attachmentsDir⟩
  rw [lookup_fetch h, if_neg]
  · split
    · simp
    · exact hFiles other content hOther
  · rintro rfl
    exact m.emlPath_not_prefix m hOther

theorem contains_attachment_of_fetch {m : Message} {scratch fetched : FileTree Bytes} (h : m.fetch scratch = some fetched)
    (name : Text) : fetched.contains (m.attachmentsDir ++ [name]) = scratch.contains (m.attachmentsDir ++ [name]) := by
  have hLength : m.relpath.length < (m.attachmentsDir ++ [name]).length := by simp [attachmentsDir, uidDir]
  rw [FileTree.contains, lookup_fetch h, if_neg, if_neg]
  · rfl
  · intro hPrefix
    have hShort := hPrefix.length_le
    omega
  · intro hEq
    have hSame := congrArg List.length hEq
    simp [attachmentsDir, uidDir, emlPath] at hSame

end Message

theorem stageObjects_eq {parse : Bytes → Option (List MessagePart)} {email : Text} {scratch : FileTree Bytes} {m : Message}
    (hFetched : m.Fetched scratch) :
    stageObjects parse email scratch m =
      ((stageParts scratch m.attachmentsDir (m.parts parse)).1,
        (m.emlPath, m.emlKey email) :: (stageParts scratch m.attachmentsDir (m.parts parse)).2.map
          fun attachment => (attachment.path, m.attachmentKey email attachment.name)) := by
  have hContains : scratch.contains m.emlPath = true := by
    rw [FileTree.contains, hFetched]
    rfl
  rw [stageObjects, if_pos hContains, extractAttachments, hFetched, Message.parts]
  cases hParse : parse m.body with
  | none => simp [hParse, stageParts]
  | some parts => simp [hParse]

def objectKey (email : Text) (path : Path) : Text := ['/'].intercalate (sanitizeSegment email :: path)

theorem relativeKey_append {relpath path : Path} (hSegments : ∀ segment ∈ relpath, segment ≠ []) (hPath : path ≠ []) :
    relativeKey relpath ++ ['/'].intercalate path = ['/'].intercalate (relpath ++ path) := by
  cases relpath with
  | nil => rfl
  | cons segment relpath =>
    have hJoined : ['/'].intercalate (segment :: relpath) ≠ [] := by
      have hSegment := hSegments segment List.mem_cons_self
      cases relpath with
      | nil => simpa using hSegment
      | cons next relpath => simp
    simp only [relativeKey, if_neg hJoined]
    rw [Text.intercalate_append '/' (List.cons_ne_nil _ _) hPath]
    simp

theorem objectKey_emlPath (email : Text) (m : Message) : objectKey email m.emlPath = m.emlKey email := by
  have hTail : relativeKey m.relpath ++ m.emlName = ['/'].intercalate m.emlPath := by
    rw [Message.emlPath, ← relativeKey_append (fun _ => m.ne_nil_of_mem_relpath) (by simp)]
    simp
  rw [Message.emlKey, hTail, objectKey, List.intercalate_cons_of_ne_nil (by simp [Message.emlPath])]
  simp

theorem objectKey_attachment (email : Text) (m : Message) (name : Text) :
    objectKey email (m.attachmentsDir ++ [name]) = m.attachmentKey email name := by
  have hTail : relativeKey m.relpath ++ m.uidName ++ "/attachments/".toList ++ name =
      ['/'].intercalate (m.attachmentsDir ++ [name]) := by
    have hPath : m.attachmentsDir ++ [name] = m.relpath ++ [m.uidName, "attachments".toList, name] := by
      simp [Message.attachmentsDir, Message.uidDir]
    have hNames : ['/'].intercalate [m.uidName, "attachments".toList, name] =
        m.uidName ++ "/attachments/".toList ++ name := by
      simp [List.intercalate_cons_cons]
    rw [hPath, ← relativeKey_append (fun _ => m.ne_nil_of_mem_relpath) (by simp), hNames]
    simp
  rw [Message.attachmentKey, hTail, objectKey, List.intercalate_cons_of_ne_nil (by simp [Message.attachmentsDir])]
  simp

theorem objectKey_injective {email otherEmail : Text} {path other : Path} (hPath : ∀ name ∈ path, '/' ∉ name)
    (hOther : ∀ name ∈ other, '/' ∉ name) (h : objectKey email path = objectKey otherEmail other) :
    sanitizeSegment email = sanitizeSegment otherEmail ∧ path = other := by
  have hSegment (email : Text) : '/' ∉ sanitizeSegment email := not_mem_sanitizeSegment (by decide) (by decide) email
  have hEq := Text.intercalate_injective (List.cons_ne_nil _ _) (List.cons_ne_nil _ _)
    (List.forall_mem_cons.mpr ⟨hSegment email, hPath⟩) (List.forall_mem_cons.mpr ⟨hSegment otherEmail, hOther⟩) h
  exact List.cons_eq_cons.mp hEq

/-! ## Keys of two messages -/

theorem not_mem_emlPath (m : Message) : ∀ name ∈ m.emlPath, '/' ∉ name := by
  intro name hName
  obtain hSegment | hLast := List.mem_append.mp hName
  · exact m.not_mem_relpath (by decide) (by decide) name hSegment
  · rw [List.mem_singleton.mp hLast]
    exact m.not_mem_emlName (by decide) (by decide)

theorem not_mem_attachmentsDir (m : Message) : ∀ name ∈ m.attachmentsDir, '/' ∉ name := by
  intro name hName
  simp only [Message.attachmentsDir, Message.uidDir, List.mem_append, List.mem_singleton] at hName
  obtain (hSegment | rfl) | rfl := hName
  · exact m.not_mem_relpath (by decide) (by decide) name hSegment
  · exact m.not_mem_uidName (by decide)
  · decide

theorem not_mem_attachmentPath (m : Message) {name : Text} (hName : '/' ∉ name) :
    ∀ segment ∈ m.attachmentsDir ++ [name], '/' ∉ segment := by
  intro segment hSegment
  obtain hDir | hLast := List.mem_append.mp hSegment
  · exact not_mem_attachmentsDir m segment hDir
  · rw [List.mem_singleton.mp hLast]
    exact hName

section Keys

variable {parse : Bytes → Option (List MessagePart)} {email : Text} {m : Message} {scratch : FileTree Bytes}

theorem mem_stageObjects (hFetched : m.Fetched scratch) {object : Path × Text}
    (hObject : object ∈ (stageObjects parse email scratch m).2) :
    object.2 = objectKey email object.1 ∧ (∀ name ∈ object.1, '/' ∉ name) ∧
      (object.1 = m.emlPath ∨ ∃ attachment ∈ (stageParts scratch m.attachmentsDir (m.parts parse)).2,
        object.1 = m.attachmentsDir ++ [attachment.name]) := by
  rw [stageObjects_eq hFetched] at hObject
  obtain rfl | hAttachment := List.mem_cons.mp hObject
  · exact ⟨(objectKey_emlPath email m).symm, not_mem_emlPath m, .inl rfl⟩
  · obtain ⟨attachment, hStaged, rfl⟩ := List.mem_map.mp hAttachment
    obtain ⟨hPath, -, hSlash, -⟩ := mem_stageParts hStaged
    refine ⟨?_, ?_, .inr ⟨attachment, hStaged, hPath⟩⟩
    · rw [← objectKey_attachment, hPath]
    · rw [hPath]
      exact not_mem_attachmentPath m hSlash

theorem carries_of_staged {other : Message} {attachment : StagedAttachment}
    (hStaged : attachment ∈ (stageParts scratch m.attachmentsDir (m.parts parse)).2)
    (hName : other.emlName = attachment.name) : m.Carries parse other.emlName := by
  obtain ⟨-, -, -, -, part, hPart, ⟨hSkipped, -⟩, hGiven, -⟩ := mem_stageParts hStaged
  refine ⟨part, hPart, hSkipped, ?_⟩
  obtain hSame | hHyphen := hGiven
  · rw [hName, hSame]
  · rw [← hName] at hHyphen
    exact absurd hHyphen (other.not_mem_emlName (by decide) (by decide))

theorem staged_of_carries {fetched : FileTree Bytes} {other : Message} (hFetch : m.fetch FileTree.empty = some fetched)
    (hCarries : m.Carries parse other.emlName) :
    ∃ attachment ∈ (stageParts fetched m.attachmentsDir (m.parts parse)).2, attachment.name = other.emlName := by
  obtain ⟨part, hPart, hSkipped, hName⟩ := hCarries
  have hPassable : Passable fetched m.attachmentsDir :=
    Message.passable_of_fetch hFetch fun path content _ => FileTree.empty_noFile path content
  have hNul : '\x00' ∉ part.sanitizedName := hName ▸ other.not_mem_emlName (by decide) (by decide)
  have hFree : fetched.contains (m.attachmentsDir ++ [part.sanitizedName]) = false := by
    rw [Message.contains_attachment_of_fetch hFetch]
    exact FileTree.contains_empty _ (by simp)
  obtain ⟨attachment, hStaged, hGiven⟩ := exists_staged hPassable hPart hSkipped hNul hFree
  exact ⟨attachment, hStaged, hGiven.trans hName⟩

theorem nodup_objectKeys (hFetched : m.Fetched scratch) : (objectKeys parse email scratch m).Nodup := by
  have hKeys : objectKeys parse email scratch m =
      (m.emlPath :: (stageParts scratch m.attachmentsDir (m.parts parse)).2.map
        fun attachment => m.attachmentsDir ++ [attachment.name]).map (objectKey email) := by
    rw [objectKeys, stageObjects_eq hFetched]
    simp [objectKey_emlPath, objectKey_attachment]
  rw [hKeys]
  refine List.Nodup.map_on ?_ (List.nodup_cons.mpr ⟨?_, ?_⟩)
  · have hSlash : ∀ path ∈ m.emlPath :: (stageParts scratch m.attachmentsDir (m.parts parse)).2.map
        (fun attachment => m.attachmentsDir ++ [attachment.name]), ∀ name ∈ path, '/' ∉ name := by
      intro path hPath
      obtain rfl | hAttachment := List.mem_cons.mp hPath
      · exact not_mem_emlPath m
      · obtain ⟨attachment, hStaged, rfl⟩ := List.mem_map.mp hAttachment
        obtain ⟨-, -, hName, -⟩ := mem_stageParts hStaged
        exact not_mem_attachmentPath m hName
    intro path hPath other hOther hEq
    exact (objectKey_injective (hSlash path hPath) (hSlash other hOther) hEq).2
  · intro hMem
    obtain ⟨attachment, -, hEq⟩ := List.mem_map.mp hMem
    have hLength := congrArg List.length hEq
    simp [Message.attachmentsDir, Message.uidDir, Message.emlPath] at hLength
  · have hNames : ((stageParts scratch m.attachmentsDir (m.parts parse)).2.map StagedAttachment.name).Nodup :=
      nodup_stageParts (m.parts parse)
    have hPaths := hNames.map (f := fun name => m.attachmentsDir ++ [name]) fun name other hEq =>
      (Path.child_inj.mp hEq).2
    rwa [List.map_map] at hPaths

end Keys

/-- No push of one of the two messages goes to a key of the other one or twice to a key of
its own. -/
def KeysApart (parse : Bytes → Option (List MessagePart)) (email otherEmail : Text) (m other : Message) : Prop :=
  ∀ scratch otherScratch, m.Fetched scratch → other.Fetched otherScratch →
    (objectKeys parse email scratch m).Nodup ∧ (objectKeys parse otherEmail otherScratch other).Nodup ∧
      (objectKeys parse email scratch m).Disjoint (objectKeys parse otherEmail otherScratch other)

theorem emlKey_mem_objectKeys (parse : Bytes → Option (List MessagePart)) (email : Text) {m : Message}
    {scratch : FileTree Bytes} (hFetched : m.Fetched scratch) : m.emlKey email ∈ objectKeys parse email scratch m := by
  rw [objectKeys, stageObjects_eq hFetched]
  exact List.mem_cons_self

theorem not_keysApart_of_among {parse : Bytes → Option (List MessagePart)} {email otherEmail : Text} {m other : Message}
    (hIdentity : sanitizeSegment email = sanitizeSegment otherEmail) (hAmong : m.AmongAttachments parse other) :
    ∃ scratch otherScratch, m.Fetched scratch ∧ other.Fetched otherScratch ∧
      ¬ (objectKeys parse email scratch m).Disjoint (objectKeys parse otherEmail otherScratch other) := by
  obtain ⟨fetched, hFetch⟩ := m.fetch_empty
  obtain ⟨otherFetched, hOtherFetch⟩ := other.fetch_empty
  obtain ⟨attachment, hStaged, hName⟩ := staged_of_carries hOtherFetch hAmong.2
  refine ⟨fetched, otherFetched, Message.fetched_of_fetch hFetch, Message.fetched_of_fetch hOtherFetch, fun hDisjoint => ?_⟩
  have hKey : m.emlKey email = other.attachmentKey otherEmail attachment.name := by
    rw [← objectKey_emlPath, ← objectKey_attachment, objectKey, objectKey, hIdentity, hName, ← hAmong.1, Message.emlPath]
  apply hDisjoint (emlKey_mem_objectKeys parse email (Message.fetched_of_fetch hFetch))
  rw [objectKeys, stageObjects_eq (Message.fetched_of_fetch hOtherFetch), hKey]
  exact List.mem_cons_of_mem _ (List.mem_map.mpr ⟨_, List.mem_map.mpr ⟨attachment, hStaged, rfl⟩, rfl⟩)

/-- Two messages keep their keys apart unless their identities have the same slug and they
stage a common path. -/
theorem keysApart_iff (parse : Bytes → Option (List MessagePart)) (email otherEmail : Text) (m other : Message) :
    KeysApart parse email otherEmail m other ↔
      ¬ (sanitizeSegment email = sanitizeSegment otherEmail ∧ m.SharePath parse other) := by
  constructor
  · rintro hApart ⟨hIdentity, ⟨hRelpath, hUid⟩ | hAmong | hAmong⟩
    · obtain ⟨fetched, hFetch⟩ := m.fetch_empty
      obtain ⟨otherFetched, hOtherFetch⟩ := other.fetch_empty
      have hKey : m.emlKey email = other.emlKey otherEmail := by
        rw [Message.emlKey, Message.emlKey, hIdentity, hRelpath, Message.emlName, Message.emlName, hUid]
      have hMem := emlKey_mem_objectKeys parse email (Message.fetched_of_fetch hFetch)
      have hOtherMem := emlKey_mem_objectKeys parse otherEmail (Message.fetched_of_fetch hOtherFetch)
      exact (hApart fetched otherFetched (Message.fetched_of_fetch hFetch) (Message.fetched_of_fetch hOtherFetch)).2.2
        hMem (hKey ▸ hOtherMem)
    · obtain ⟨scratch, otherScratch, hFetched, hOther, hOverlap⟩ := not_keysApart_of_among hIdentity hAmong
      exact hOverlap (hApart scratch otherScratch hFetched hOther).2.2
    · obtain ⟨otherScratch, scratch, hOther, hFetched, hOverlap⟩ := not_keysApart_of_among hIdentity.symm hAmong
      exact hOverlap fun key hKey hOtherKey => (hApart scratch otherScratch hFetched hOther).2.2 hOtherKey hKey
  · intro hApart scratch otherScratch hFetched hOther
    refine ⟨nodup_objectKeys hFetched, nodup_objectKeys hOther, fun key hKey hOtherKey => hApart ?_⟩
    obtain ⟨object, hObject, rfl⟩ := List.mem_map.mp hKey
    obtain ⟨twin, hTwin, hEq⟩ := List.mem_map.mp hOtherKey
    obtain ⟨hObjectKey, hSlash, hPath⟩ := mem_stageObjects hFetched hObject
    obtain ⟨hTwinKey, hTwinSlash, hTwinPath⟩ := mem_stageObjects hOther hTwin
    rw [hObjectKey, hTwinKey] at hEq
    obtain ⟨hIdentity, hSame⟩ := objectKey_injective hTwinSlash hSlash hEq
    refine ⟨hIdentity.symm, ?_⟩
    obtain hEml | ⟨attachment, hStaged, hAttachment⟩ := hPath
    · obtain hTwinEml | ⟨attachment, hStaged, hAttachment⟩ := hTwinPath
      · exact .inl (Message.emlPath_eq_emlPath.mp (hEml ▸ hTwinEml ▸ hSame.symm))
      · rw [hEml, hAttachment] at hSame
        obtain ⟨hRelpath, hName⟩ := Path.child_inj.mp hSame
        exact .inr (.inl ⟨hRelpath.symm, carries_of_staged hStaged hName.symm⟩)
    · obtain hTwinEml | ⟨twinAttachment, _, hTwinAttachment⟩ := hTwinPath
      · rw [hTwinEml, hAttachment] at hSame
        obtain ⟨hRelpath, hName⟩ := Path.child_inj.mp hSame
        exact .inr (.inr ⟨hRelpath, carries_of_staged hStaged hName⟩)
      · rw [hTwinAttachment, hAttachment] at hSame
        exact .inl (Message.attachmentsDir_injective (Path.child_inj.mp hSame).1.symm)

/-- Two mailboxes with one slug: their messages with the same UID go to the same key. -/
theorem sent_items_share_key :
    ∃ m other : Message, m.mailbox ≠ other.mailbox ∧
      ¬ KeysApart (fun _ => none) "a@example.com".toList "a@example.com".toList m other := by
  refine ⟨⟨"Sent Items".toList, some ['/'], 7, 1, [1]⟩, ⟨"Sent-Items".toList, some ['/'], 9, 1, [2]⟩, by decide, ?_⟩
  intro hApart
  have hDisjoint := (hApart ⟨[(["sent-items".toList, "1.eml".toList], .file [1])]⟩
    ⟨[(["sent-items".toList, "1.eml".toList], .file [2])]⟩ (by decide) (by decide)).2.2
  exact hDisjoint (a := "a-example-com/sent-items/1.eml".toList) (by decide) (by decide)

end Pigeon.EmailImport
