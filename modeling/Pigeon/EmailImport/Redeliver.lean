import Pigeon.EmailImport.Deliver

/-! # Delivering a message over leftovers

What an interrupted attempt left in the scratch directory is overwritten by the fetch, but
an attachment that finds its name taken is staged, and pushed, under another one.
-/
namespace Pigeon.EmailImport

open Library

set_option autoImplicit false

def readObject (scratch : FileTree Bytes) (object : Path × Text) : Option (Text × Bytes) :=
  match scratch.lookup object.1 with
  | some (.file bytes) => some (object.2, bytes)
  | _ => none

def pushedObjects (parse : Bytes → Option (List MessagePart)) (email : Text) (scratch : FileTree Bytes) (m : Message) :
    List (Text × Bytes) :=
  match m.fetch scratch with
  | none => []
  | some fetched =>
    let (final, objects) := stageObjects parse email fetched m
    objects.filterMap (readObject final)

def upload (destination : Text → Option Bytes) (objects : List (Text × Bytes)) : Text → Option Bytes :=
  objects.foldl (fun held object => Function.update held object.1 (some object.2)) destination

namespace Message

def attachmentNames (parse : Bytes → Option (List MessagePart)) (m : Message) : List Text :=
  (stagedFiles FileTree.empty ["attachments".toList] (m.parts parse)).map Prod.fst

/-- Nothing that is left stands in the way of the message: no file where it needs a folder,
no directory at its `.eml`, no entry under a name its attachments take. -/
structure Unobstructed (parse : Bytes → Option (List MessagePart)) (m : Message) (left : FileTree Bytes) : Prop where
  folder : ∀ path content, path <+: m.relpath → left.lookup path ≠ some (.file content)
  eml : left.lookup m.emlPath ≠ some .dir
  attachments : m.attachmentNames parse ≠ [] →
    ∀ path content, path <+: m.attachmentsDir → left.lookup path ≠ some (.file content)
  names : ∀ name ∈ m.attachmentNames parse, left.contains (m.attachmentsDir ++ [name]) = false

end Message

section Pushed

variable {parse : Bytes → Option (List MessagePart)} {email : Text} {m : Message}

theorem mem_stagedFiles {scratch : FileTree Bytes} {dir : Path} {parts : List MessagePart}
    {file : Text × Option (Node Bytes)} (h : file ∈ stagedFiles scratch dir parts) :
    ∃ part ∈ parts, (¬ part.Skipped ∧ '\x00' ∉ part.sanitizedName) ∧ file.2 = some (.file part.contents) ∧
      scratch.contains (dir ++ [file.1]) = false ∧ ∃ made, scratch.createDirAll dir = some made := by
  obtain ⟨attachment, hStaged, rfl⟩ := List.mem_map.mp h
  obtain ⟨hPath, hFree, -, hMade, part, hPart, hWritten, -, hContents⟩ := mem_stageParts hStaged
  exact ⟨part, hPart, hWritten, hContents, hPath ▸ hFree, hMade⟩

theorem pushedObjects_of_fetch {scratch fetched : FileTree Bytes} (hFetch : m.fetch scratch = some fetched) :
    pushedObjects parse email scratch m =
      (m.emlKey email, m.body) :: (stagedFiles fetched m.attachmentsDir (m.parts parse)).filterMap fun file =>
        match file.2 with
        | some (.file bytes) => some (m.attachmentKey email file.1, bytes)
        | _ => none := by
  have hFetched := Message.fetched_of_fetch hFetch
  have hEml : (stageParts fetched m.attachmentsDir (m.parts parse)).1.lookup m.emlPath = some (.file m.body) :=
    stageParts_keeps _ hFetched
  simp only [pushedObjects, hFetch, stageObjects_eq hFetched, List.filterMap_cons, readObject, hEml, stagedFiles,
    List.filterMap_map]
  rfl

theorem mem_pushedObjects {scratch fetched : FileTree Bytes} (hFetch : m.fetch scratch = some fetched)
    {object : Text × Bytes} (h : object ∈ pushedObjects parse email scratch m) :
    object = (m.emlKey email, m.body) ∨
      ∃ file ∈ stagedFiles fetched m.attachmentsDir (m.parts parse), object.1 = m.attachmentKey email file.1 := by
  rw [pushedObjects_of_fetch hFetch] at h
  obtain hEml | hAttachment := List.mem_cons.mp h
  · exact .inl hEml
  · obtain ⟨file, hFile, hObject⟩ := List.mem_filterMap.mp hAttachment
    refine .inr ⟨file, hFile, ?_⟩
    split at hObject
    · cases hObject
      rfl
    · cases hObject

theorem passable_empty : Passable FileTree.empty ["attachments".toList] :=
  ⟨fun path content _ => FileTree.empty_noFile path content, by decide⟩

theorem stagedFiles_eq_nil (hNames : m.attachmentNames parse = []) (scratch : FileTree Bytes) (dir : Path) :
    stagedFiles scratch dir (m.parts parse) = [] := by
  rw [List.eq_nil_iff_forall_not_mem]
  intro file hFile
  obtain ⟨part, hPart, ⟨hSkipped, hNul⟩, -⟩ := mem_stagedFiles hFile
  obtain ⟨attachment, hStaged, -⟩ :=
    exists_staged passable_empty hPart hSkipped hNul (FileTree.contains_empty _ (by simp))
  have hMem : attachment.name ∈ m.attachmentNames parse :=
    List.mem_map.mpr ⟨_, List.mem_map.mpr ⟨attachment, hStaged, rfl⟩, rfl⟩
  rw [hNames] at hMem
  cases hMem

theorem stagedFiles_of_unobstructed {left fetched : FileTree Bytes} (h : m.Unobstructed parse left)
    (hFetch : m.fetch left = some fetched) :
    stagedFiles fetched m.attachmentsDir (m.parts parse) =
      stagedFiles FileTree.empty ["attachments".toList] (m.parts parse) := by
  by_cases hNames : m.attachmentNames parse = []
  · rw [stagedFiles_eq_nil hNames, stagedFiles_eq_nil hNames]
  · apply stagedFiles_agree _ (Message.passable_of_fetch hFetch (h.attachments hNames)) passable_empty
    · intro name hName
      rw [FileTree.contains_empty _ (by simp)] at hName
      cases hName
    · intro file hFile
      rw [Message.contains_attachment_of_fetch hFetch]
      exact h.names file.1 (List.mem_map.mpr ⟨file, hFile, rfl⟩)

theorem unobstructed_empty : m.Unobstructed parse FileTree.empty where
  folder path content _ := FileTree.empty_noFile path content
  eml := by simp [Message.emlPath]
  attachments _ path content _ := FileTree.empty_noFile path content
  names name _ := FileTree.contains_empty _ (by simp)

theorem pushedObjects_of_unobstructed {left : FileTree Bytes} (h : m.Unobstructed parse left) :
    pushedObjects parse email left m = pushedObjects parse email FileTree.empty m := by
  obtain ⟨fetched, hFetch⟩ := Message.fetch_isSome h.folder h.eml
  obtain ⟨clean, hClean⟩ := m.fetch_empty
  rw [pushedObjects_of_fetch hFetch, pushedObjects_of_fetch hClean, stagedFiles_of_unobstructed h hFetch,
    stagedFiles_of_unobstructed unobstructed_empty hClean]

theorem attachmentKey_injective {name other : Text} (h : m.attachmentKey email name = m.attachmentKey email other) :
    name = other := List.append_cancel_left (List.cons_inj_right _ |>.mp (List.append_cancel_left h))

theorem attachmentKey_ne_emlKey {scratch : FileTree Bytes} {file : Text × Option (Node Bytes)}
    (hFile : file ∈ stagedFiles scratch m.attachmentsDir (m.parts parse)) :
    m.attachmentKey email file.1 ≠ m.emlKey email := by
  obtain ⟨attachment, hStaged, rfl⟩ := List.mem_map.mp hFile
  obtain ⟨-, -, hSlash, -⟩ := mem_stageParts hStaged
  rw [← objectKey_attachment, ← objectKey_emlPath]
  intro hEq
  have hPath := not_mem_attachmentPath m hSlash
  have hLength := congrArg List.length (objectKey_injective hPath (not_mem_emlPath m) hEq).2
  simp [Message.attachmentsDir, Message.uidDir, Message.emlPath] at hLength

theorem unobstructed_of_same {left : FileTree Bytes}
    (hSame : ∀ object, object ∈ pushedObjects parse email left m ↔ object ∈ pushedObjects parse email FileTree.empty m) :
    m.Unobstructed parse left := by
  obtain ⟨clean, hClean⟩ := m.fetch_empty
  have hEml : (m.emlKey email, m.body) ∈ pushedObjects parse email left m := by
    rw [hSame, pushedObjects_of_fetch hClean]
    exact List.mem_cons_self
  obtain ⟨fetched, hFetch⟩ : ∃ fetched, m.fetch left = some fetched := by
    cases hFetch : m.fetch left with
    | none => simp [pushedObjects, hFetch] at hEml
    | some fetched => exact ⟨fetched, rfl⟩
  obtain ⟨made, hMade, hWrite⟩ := Option.bind_eq_some_iff.mp hFetch
  have hFolder : ∀ path content, path <+: m.relpath → left.lookup path ≠ some (.file content) := by
    intro path content hPath hFile
    rw [FileTree.createDirAll_eq_none hPath hFile] at hMade
    cases hMade
  have hNames : ∀ name ∈ m.attachmentNames parse, left.contains (m.attachmentsDir ++ [name]) = false ∧
      ∃ made, fetched.createDirAll m.attachmentsDir = some made := by
    intro name hName
    obtain ⟨file, hFile, rfl⟩ := List.mem_map.mp hName
    rw [← stagedFiles_of_unobstructed unobstructed_empty hClean] at hFile
    obtain ⟨part, _, -, hContents, -⟩ := mem_stagedFiles hFile
    have hPushed : (m.attachmentKey email file.1, part.contents) ∈ pushedObjects parse email left m := by
      rw [hSame, pushedObjects_of_fetch hClean]
      exact List.mem_cons_of_mem _ (List.mem_filterMap.mpr ⟨file, hFile, by rw [hContents]⟩)
    obtain hKey | ⟨twin, hTwin, hKey⟩ := mem_pushedObjects hFetch hPushed
    · exact absurd (congrArg Prod.fst hKey) (attachmentKey_ne_emlKey hFile)
    · obtain ⟨-, -, -, -, hFree, hOpen⟩ := mem_stagedFiles hTwin
      rw [← attachmentKey_injective hKey, Message.contains_attachment_of_fetch hFetch] at hFree
      exact ⟨hFree, hOpen⟩
  refine ⟨hFolder, ?_, ?_, fun name hName => (hNames name hName).1⟩
  · obtain ⟨-, hFree, -⟩ := FileTree.write_eq_some.mp hWrite
    have hNotFolder : ¬ m.emlPath <+: m.relpath := not_prefix_of_name m.relpath m.emlName
    rwa [FileTree.lookup_createDirAll hMade, if_neg hNotFolder] at hFree
  · intro hNonempty path content hPath hFile
    obtain ⟨name, hName⟩ := List.exists_mem_of_ne_nil _ hNonempty
    obtain ⟨made, hOpen⟩ := (hNames name hName).2
    have hBlocked : fetched.lookup path = some (.file content) := by
      rw [Message.lookup_fetch hFetch, if_neg, if_neg]
      · exact hFile
      · exact fun hPrefix => hFolder path content hPrefix hFile
      · rintro rfl
        exact m.emlPath_not_prefix m hPath
    rw [FileTree.createDirAll_eq_none hPath hBlocked] at hOpen
    cases hOpen

end Pushed

section Upload

variable {destination : Text → Option Bytes} {objects : List (Text × Bytes)} {key : Text}

theorem upload_of_not_mem (h : ∀ object ∈ objects, object.1 ≠ key) : upload destination objects key = destination key := by
  induction objects generalizing destination with
  | nil => rfl
  | cons object objects ih =>
    rw [upload, List.foldl_cons]
    refine (ih fun other hOther => h other (List.mem_cons_of_mem object hOther)).trans ?_
    exact Function.update_of_ne (h object List.mem_cons_self).symm _ _

theorem upload_of_mem {bytes : Bytes} (hMem : (key, bytes) ∈ objects)
    (hOne : ∀ object ∈ objects, object.1 = key → object.2 = bytes) : upload destination objects key = some bytes := by
  induction objects using List.reverseRecOn with
  | nil => cases hMem
  | append_singleton objects last ih =>
    rw [upload, List.foldl_append, List.foldl_cons, List.foldl_nil]
    by_cases hLast : last.1 = key
    · subst key
      rw [Function.update_self, hOne last (by simp) rfl]
    · rw [Function.update_of_ne (Ne.symm hLast)]
      refine ih ?_ fun object hObject => hOne object (List.mem_append_left _ hObject)
      obtain hInit | hEq := List.mem_append.mp hMem
      · exact hInit
      · rw [← List.mem_singleton.mp hEq] at hLast
        exact absurd rfl hLast

end Upload

theorem sublist_readObject (scratch : FileTree Bytes) (objects : List (Path × Text)) :
    ((objects.filterMap (readObject scratch)).map Prod.fst).Sublist (objects.map Prod.snd) := by
  induction objects with
  | nil => exact List.Sublist.slnil
  | cons object objects ih =>
    rw [List.filterMap_cons, List.map_cons]
    split
    · exact ih.cons _
    · rename_i pushed hPushed
      rw [readObject] at hPushed
      split at hPushed
      · cases hPushed
        exact ih.cons_cons _
      · cases hPushed

theorem nodup_pushedObjects (parse : Bytes → Option (List MessagePart)) (email : Text) (scratch : FileTree Bytes)
    (m : Message) : ((pushedObjects parse email scratch m).map Prod.fst).Nodup := by
  rw [pushedObjects]
  split
  · exact .nil
  · rename_i fetched hFetch
    have hKeys : (objectKeys parse email fetched m).Nodup := nodup_objectKeys (Message.fetched_of_fetch hFetch)
    exact hKeys.sublist (sublist_readObject _ _)

theorem upload_same {destination : Text → Option Bytes} {done objects reference : List (Text × Bytes)}
    (hSame : ∀ object, object ∈ objects ↔ object ∈ reference) (hNodup : (reference.map Prod.fst).Nodup)
    (hDone : done <+: reference) : upload (upload destination done) objects = upload destination reference := by
  have hOne (key : Text) (bytes : Bytes) (hMem : (key, bytes) ∈ reference) :
      ∀ object ∈ reference, object.1 = key → object.2 = bytes := by
    intro object hObject hKey
    exact congrArg Prod.snd (List.inj_on_of_nodup_map hNodup hObject hMem hKey)
  funext key
  by_cases hKey : ∃ bytes, (key, bytes) ∈ reference
  · obtain ⟨bytes, hMem⟩ := hKey
    rw [upload_of_mem hMem (hOne key bytes hMem), upload_of_mem ((hSame _).mpr hMem)]
    exact fun object hObject => hOne key bytes hMem object ((hSame object).mp hObject)
  · have hAbsent : ∀ object ∈ reference, object.1 ≠ key := by
      rintro ⟨other, bytes⟩ hObject rfl
      exact hKey ⟨bytes, hObject⟩
    rw [upload_of_not_mem hAbsent, upload_of_not_mem fun object hObject => hAbsent object ((hSame object).mp hObject),
      upload_of_not_mem fun object hObject => hAbsent object (hDone.subset hObject)]

/-- Over leftovers the same objects are pushed as from an empty scratch directory, and an
interrupted delivery that is rerun ends with the same destination, exactly when nothing
that is left stands in the way of the message. -/
theorem redelivers_iff (parse : Bytes → Option (List MessagePart)) (email : Text) (m : Message) (left : FileTree Bytes) :
    ((∀ object, object ∈ pushedObjects parse email left m ↔ object ∈ pushedObjects parse email FileTree.empty m) ∧
      ∀ destination done, done <+: pushedObjects parse email FileTree.empty m →
        upload (upload destination done) (pushedObjects parse email left m) =
          upload destination (pushedObjects parse email FileTree.empty m)) ↔
    m.Unobstructed parse left := by
  constructor
  · intro hSame
    exact unobstructed_of_same hSame.1
  · intro hClear
    have hSame : pushedObjects parse email left m = pushedObjects parse email FileTree.empty m :=
      pushedObjects_of_unobstructed hClear
    refine ⟨fun object => by rw [hSame], fun destination done hDone => ?_⟩
    exact upload_same (fun object => by rw [hSame]) (nodup_pushedObjects parse email FileTree.empty m) hDone

/-- The first attempt staged `a.pdf` and was interrupted; the second one pushes `a-2.pdf`. -/
theorem leftover_renames_attachment :
    ∃ (parse : Bytes → Option (List MessagePart)) (m : Message) (left : FileTree Bytes),
      (∃ fetched, m.fetch FileTree.empty = some fetched ∧
        (stageObjects parse "a@example.com".toList fetched m).1 = left) ∧
      ("a-example-com/inbox/1/attachments/a-2.pdf".toList, [9]) ∈ pushedObjects parse "a@example.com".toList left m ∧
      ("a-example-com/inbox/1/attachments/a-2.pdf".toList, [9]) ∉
        pushedObjects parse "a@example.com".toList FileTree.empty m := by
  let parse : Bytes → Option (List MessagePart) := fun _ => some [⟨some "a.pdf".toList, [9]⟩]
  let m : Message := ⟨"INBOX".toList, some ['/'], 7, 1, [1]⟩
  obtain ⟨fetched, hFetch⟩ := m.fetch_empty
  refine ⟨parse, m, (stageObjects parse "a@example.com".toList fetched m).1, ⟨fetched, hFetch, rfl⟩, ?_, by decide⟩
  obtain rfl : fetched = (m.fetch FileTree.empty).get (by decide) := by simp [hFetch]
  decide

end Pigeon.EmailImport
