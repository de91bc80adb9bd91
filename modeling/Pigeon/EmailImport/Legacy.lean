import Pigeon.Library.Runs
import Pigeon.EmailImport.Gather

/-! # The local checkpoint and the UIDVALIDITY markers

Without a ledger a run keeps its progress in `.pushed`, whose rows are keyed by the mailbox
name, and the UIDVALIDITY it last saw in a marker file below the mailbox's sanitized path. A
marker that no longer matches clears the rows of the mailbox.
-/
namespace Pigeon.EmailImport

open Library
open Text (AppendOutcome)

set_option autoImplicit false

structure CheckpointEntry where
  mailbox : Text
  /-- `none` only for a row of the older two-field format. -/
  uidvalidity : Option UInt32
  uid : UInt32
deriving DecidableEq, Repr

namespace Checkpoint

/-- CHECKPOINT_FILE -/
def fileName : Text := ".pushed".toList

def formatRow (entry : CheckpointEntry) : Text :=
  match entry.uidvalidity with
  | some uidvalidity => entry.mailbox ++ '\t' :: (Text.showU32 uidvalidity ++ '\t' :: Text.showU32 entry.uid)
  | none => entry.mailbox ++ '\t' :: Text.showU32 entry.uid

def parseLine (line : Text) : Option CheckpointEntry :=
  if Text.trim line = [] then none
  else
    match line.splitOn '\t' with
    | [mailbox, uid] => (Text.parseU32 (Text.trim uid)).map fun uid => { mailbox, uidvalidity := none, uid }
    | [mailbox, uidvalidity, uid] =>
      match Text.parseU32 (Text.trim uidvalidity) with
      | some uidvalidity => (Text.parseU32 (Text.trim uid)).map fun uid => { mailbox, uidvalidity, uid }
      | none => none
    | _ => none

def parse (contents : Text) : List CheckpointEntry := (Text.lines contents).filterMap parseLine

/-- `load_checkpoint` -/
def load (staging : FileTree Text) : Option (List CheckpointEntry) :=
  match staging.lookup [fileName] with
  | none => some []
  | some (.file contents) => some (parse contents)
  | some .dir => none

def doneUids (entries : List CheckpointEntry) : List (Text × UInt32) :=
  entries.map fun entry => (entry.mailbox, entry.uid)

/-- `clear_checkpoint_for_mailbox` -/
def clear (staging : FileTree Text) (mailbox : Text) : Option (FileTree Text) :=
  match load staging with
  | none => none
  | some entries =>
    let kept := entries.filter fun entry => entry.mailbox ≠ mailbox
    if kept.length = entries.length then some staging
    else staging.write [fileName] (kept.flatMap fun entry => formatRow entry ++ ['\n'])

/-- The text that `append_checkpoint` opens, empty where it creates the file. -/
def contents (staging : FileTree Text) : Text :=
  match staging.lookup [fileName] with
  | some (.file contents) => contents
  | _ => []

/-- `append_checkpoint` -/
def append (staging : FileTree Text) (entry : CheckpointEntry) (outcome : AppendOutcome) : Option (FileTree Text) :=
  staging.write [fileName] (Text.appendLine (contents staging) (formatRow entry) outcome)

end Checkpoint

/-- One mailbox of the loop in `gather_pending`: the tree it leaves and whether it succeeds. -/
def checkMailbox (staging : FileTree Text) (state : MailboxState) : FileTree Text × Bool :=
  match staging.createDirAll state.mailboxRelpath with
  | none => (staging, false)
  | some made =>
    let cleared :=
      if isStale (readUidvalidity made state.mailboxRelpath) state.uidvalidity then Checkpoint.clear made state.mailbox
      else some made
    match cleared with
    | none => (made, false)
    | some cleared =>
      match writeUidvalidity cleared state.mailboxRelpath state.uidvalidity with
      | none => (cleared, false)
      | some written => (written, true)

/-- The first failure ends the loop. -/
def checkMailboxes (staging : FileTree Text) : List MailboxState → FileTree Text × Bool
  | [] => (staging, true)
  | state :: states =>
    match checkMailbox staging state with
    | (staging, true) => checkMailboxes staging states
    | (staging, false) => (staging, false)

structure LegacyRuns where
  staging : FileTree Text
  pending : List PendingMailbox
  /-- Every `(mailbox, uid)` whose row was appended. -/
  appended : List (Text × UInt32)

inductive LegacyEvent where
  | begin (states : List MailboxState)
  | append (pending : PendingMailbox) (uid : UInt32) (outcome : AppendOutcome)

/-- The server's mailboxes by name, each with its delimiter and its UIDVALIDITY. -/
abbrev Server := Text → Option (Option Text × UInt32)

namespace LegacyRuns

def start (staging : FileTree Text) : LegacyRuns where
  staging := staging
  pending := []
  appended := []

def step (server : Server) (s : LegacyRuns) : LegacyEvent → Option LegacyRuns
  | .begin states =>
    if ∀ state ∈ states, server state.mailbox = some (state.delimiter, state.uidvalidity) then
      match checkMailboxes s.staging states with
      | (staging, false) => some { s with staging, pending := [] }
      | (staging, true) =>
        match Checkpoint.load staging with
        | none => some { s with staging, pending := [] }
        | some entries =>
          let uidsFor (state : MailboxState) : List UInt32 :=
            ((Checkpoint.doneUids entries).filter fun done => done.1 = state.mailbox).map Prod.snd
          some { s with staging, pending := pendingMailboxes uidsFor states }
    else none
  | .append pending uid outcome =>
    if pending ∈ s.pending ∧ uid ∈ pending.uids then
      match Checkpoint.append s.staging ⟨pending.mailbox, some pending.uidvalidity, uid⟩ outcome with
      | none => some s
      | some staging =>
        some { s with
          staging
          appended := if outcome = .ok then (pending.mailbox, uid) :: s.appended else s.appended }
    else none

/-- An append that succeeds starts a line. -/
def Kept (s : LegacyRuns) : LegacyEvent → Prop
  | .begin _ => True
  | .append _ _ outcome => outcome = .ok → Text.Terminated (Checkpoint.contents s.staging)

end LegacyRuns

/-- Names fit in a row, and mailboxes that share a marker have one UIDVALIDITY. -/
structure Server.Independent (server : Server) : Prop where
  names : ∀ mailbox found, server mailbox = some found → '\t' ∉ mailbox ∧ '\n' ∉ mailbox
  markers : ∀ mailbox other delimiter otherDelimiter uidvalidity otherValidity,
    server mailbox = some (delimiter, uidvalidity) → server other = some (otherDelimiter, otherValidity) →
      sanitizeMailboxPath mailbox delimiter = sanitizeMailboxPath other otherDelimiter → uidvalidity = otherValidity

/-! ## Rows -/

namespace Checkpoint

theorem not_mem_formatRow {entry : CheckpointEntry} (hName : '\n' ∉ entry.mailbox) : '\n' ∉ formatRow entry := by
  have hDigits (n : UInt32) : '\n' ∉ Text.showU32 n := Text.not_mem_showU32 (by decide) n
  rw [formatRow]
  split
  · simp [hName, hDigits]
  · simp [hName, hDigits]

theorem getLast?_formatRow (entry : CheckpointEntry) : (formatRow entry).getLast? ≠ some '\r' := by
  obtain ⟨before, hShape⟩ : ∃ before, formatRow entry = before ++ Text.showU32 entry.uid := by
    rw [formatRow]
    split
    · rename_i uidvalidity _
      exact ⟨entry.mailbox ++ '\t' :: (Text.showU32 uidvalidity ++ ['\t']), by simp⟩
    · exact ⟨entry.mailbox ++ ['\t'], by simp⟩
  rw [hShape, List.getLast?_append, Option.or_of_isSome (List.getLast?_isSome.mpr (Text.showU32_ne_nil entry.uid))]
  intro hLast
  exact Text.not_mem_showU32 (by decide) entry.uid (List.mem_of_mem_getLast? hLast)

theorem parseLine_of_not_mem {line : Text} (h : '\t' ∉ line) : parseLine line = none := by
  rw [parseLine, List.splitOn_eq_singleton h, ite_self]

section Fields

variable {mailbox digits : Text} (hName : '\t' ∉ mailbox) (hDigits : ∀ c ∈ digits, c.isDigit)

include hDigits in
theorem digits_free : '\t' ∉ digits ∧ Text.trim digits = digits :=
  ⟨fun hMem => absurd (hDigits '\t' hMem) (by decide),
    Text.trim_eq_self fun c hMem => Text.isWhitespace_of_isDigit (hDigits c hMem)⟩

include hDigits in
theorem digits_eq_nil_of_trim {before : Text} (h : Text.trim (before ++ digits) = []) : digits = [] := by
  apply List.eq_nil_iff_forall_not_mem.mpr
  intro c hMem
  exact Text.trim_ne_nil_of_mem (List.mem_append_right before hMem) (Text.isWhitespace_of_isDigit (hDigits c hMem)) h

include hName hDigits in
theorem parseLine_two :
    parseLine (mailbox ++ '\t' :: digits) = (Text.parseU32 digits).map fun uid => ⟨mailbox, none, uid⟩ := by
  obtain ⟨hFree, hTrim⟩ := digits_free hDigits
  rw [parseLine]
  split
  · rename_i hBlank
    rw [List.append_cons] at hBlank
    rw [digits_eq_nil_of_trim hDigits hBlank]
    rfl
  · rw [List.splitOn_append_cons_self_of_not_mem hName, List.splitOn_eq_singleton hFree]
    simp only [hTrim]

include hName hDigits in
theorem parseLine_three (uidvalidity : UInt32) :
    parseLine (mailbox ++ '\t' :: (Text.showU32 uidvalidity ++ '\t' :: digits)) =
      (Text.parseU32 digits).map fun uid => ⟨mailbox, some uidvalidity, uid⟩ := by
  obtain ⟨hFree, hTrim⟩ := digits_free hDigits
  have hShown : '\t' ∉ Text.showU32 uidvalidity := Text.not_mem_showU32 (by decide) uidvalidity
  rw [parseLine]
  split
  · rename_i hBlank
    have hShape : mailbox ++ '\t' :: (Text.showU32 uidvalidity ++ '\t' :: digits) =
        mailbox ++ '\t' :: (Text.showU32 uidvalidity ++ ['\t']) ++ digits := by simp
    rw [hShape] at hBlank
    rw [digits_eq_nil_of_trim hDigits hBlank]
    rfl
  · rw [List.splitOn_append_cons_self_of_not_mem hName, List.splitOn_append_cons_self_of_not_mem hShown,
      List.splitOn_eq_singleton hFree]
    simp only [hTrim, Text.trim_showU32, Text.parseU32_showU32]

end Fields

theorem parseLine_formatRow {entry : CheckpointEntry} (hName : '\t' ∉ entry.mailbox) :
    parseLine (formatRow entry) = some entry := by
  have hDigits (n : UInt32) : ∀ c ∈ Text.showU32 n, c.isDigit := fun _ => Text.isDigit_of_mem_showU32
  obtain ⟨mailbox, _ | uidvalidity, uid⟩ := entry
  · rw [formatRow, parseLine_two hName (hDigits uid), Text.parseU32_showU32, Option.map_some]
  · rw [formatRow, parseLine_three hName (hDigits uid), Text.parseU32_showU32, Option.map_some]

/-- The checkpoint has a whole row of this message. -/
def HasRow (staging : FileTree Text) (mailbox : Text) (uid : UInt32) : Prop :=
  ∃ contents uidvalidity, staging.lookup [fileName] = some (.file contents) ∧
    Text.HasLine contents (formatRow ⟨mailbox, uidvalidity, uid⟩)

theorem mem_parse_of_hasLine {contents : Text} (entry : CheckpointEntry)
    (hName : '\t' ∉ entry.mailbox ∧ '\n' ∉ entry.mailbox) (h : Text.HasLine contents (formatRow entry)) :
    entry ∈ parse contents :=
  List.mem_filterMap.mpr ⟨formatRow entry, h.mem_lines (not_mem_formatRow hName.2) (getLast?_formatRow entry),
    parseLine_formatRow hName.1⟩

theorem HasRow.mem_doneUids {staging : FileTree Text} {mailbox : Text} {uid : UInt32} (h : HasRow staging mailbox uid)
    (hName : '\t' ∉ mailbox ∧ '\n' ∉ mailbox) {entries : List CheckpointEntry} (hLoad : load staging = some entries) :
    (mailbox, uid) ∈ doneUids entries := by
  obtain ⟨contents, uidvalidity, hFile, hLine⟩ := h
  rw [load, hFile] at hLoad
  cases hLoad
  exact List.mem_map_of_mem (mem_parse_of_hasLine ⟨mailbox, uidvalidity, uid⟩ hName hLine)

theorem HasRow.clear {staging next : FileTree Text} {mailbox other : Text} {uid : UInt32} (h : HasRow staging mailbox uid)
    (hName : '\t' ∉ mailbox ∧ '\n' ∉ mailbox) (hNe : mailbox ≠ other) (hClear : clear staging other = some next) :
    HasRow next mailbox uid := by
  obtain ⟨contents, uidvalidity, hFile, hLine⟩ := h
  have hLoad : load staging = some (parse contents) := by rw [load, hFile]
  simp only [Checkpoint.clear, hLoad] at hClear
  split at hClear
  · cases hClear
    exact ⟨contents, uidvalidity, hFile, hLine⟩
  · refine ⟨_, uidvalidity, by rw [FileTree.lookup_write hClear, if_pos rfl], ?_⟩
    have hRows := mem_parse_of_hasLine ⟨mailbox, uidvalidity, uid⟩ hName hLine
    have hKept : (⟨mailbox, uidvalidity, uid⟩ : CheckpointEntry) ∈
        (parse contents).filter fun entry => entry.mailbox ≠ other :=
      List.mem_filter.mpr ⟨hRows, by simpa using hNe⟩
    have hText := Text.hasLine_flatMap (List.mem_map_of_mem (f := formatRow) hKept)
    rwa [List.flatMap_map] at hText

theorem lookup_clear {staging next : FileTree Text} {mailbox : Text} (hClear : clear staging mailbox = some next)
    {path : Path} (hPath : path ≠ [fileName]) : next.lookup path = staging.lookup path := by
  rw [clear] at hClear
  split at hClear
  · cases hClear
  · dsimp only at hClear
    split at hClear
    · cases hClear
      rfl
    · rw [FileTree.lookup_write hClear, if_neg hPath]

theorem contents_of_lookup {staging : FileTree Text} {text : Text} (h : staging.lookup [fileName] = some (.file text)) :
    contents staging = text := by rw [contents, h]

theorem HasRow.append {staging next : FileTree Text} {mailbox : Text} {uid : UInt32} (h : HasRow staging mailbox uid)
    {entry : CheckpointEntry} {outcome : AppendOutcome} (hAppend : append staging entry outcome = some next) :
    HasRow next mailbox uid := by
  obtain ⟨text, uidvalidity, hFile, hLine⟩ := h
  refine ⟨_, uidvalidity, by rw [FileTree.lookup_write hAppend, if_pos rfl], ?_⟩
  rw [contents_of_lookup hFile]
  cases outcome with
  | ok => exact hLine.append _
  | failed written => exact hLine.append _

theorem hasRow_append {staging next : FileTree Text} {entry : CheckpointEntry}
    (hLine : Text.Terminated (contents staging)) (hAppend : append staging entry .ok = some next) :
    HasRow next entry.mailbox entry.uid :=
  ⟨_, entry.uidvalidity, (FileTree.lookup_write hAppend _).trans (if_pos rfl), hLine.hasLine (formatRow entry) []⟩

end Checkpoint

/-! ## Markers -/

section Markers

variable {server : Server} {staging next : FileTree Text}

/-- The marker of the mailbox holds its UIDVALIDITY. -/
def Marked (server : Server) (staging : FileTree Text) (mailbox : Text) : Prop :=
  ∃ delimiter uidvalidity, server mailbox = some (delimiter, uidvalidity) ∧
    readUidvalidity staging (sanitizeMailboxPath mailbox delimiter) = some uidvalidity

theorem readUidvalidity_congr {mailboxDir : Path}
    (h : next.lookup (mailboxDir ++ [uidvalidityFileName]) = staging.lookup (mailboxDir ++ [uidvalidityFileName])) :
    readUidvalidity next mailboxDir = readUidvalidity staging mailboxDir := by
  rw [readUidvalidity, readUidvalidity, h]

theorem readUidvalidity_write {mailboxDir : Path} {value : UInt32}
    (hWrite : writeUidvalidity staging mailboxDir value = some next) : readUidvalidity next mailboxDir = some value := by
  have hFile : next.lookup (mailboxDir ++ [uidvalidityFileName]) = some (.file (Text.showU32 value)) :=
    (FileTree.lookup_write hWrite _).trans (if_pos rfl)
  simp only [readUidvalidity, hFile, Text.trim_showU32, Text.parseU32_showU32]

theorem markerPath_ne (mailboxDir : Path) : mailboxDir ++ [uidvalidityFileName] ≠ [Checkpoint.fileName] := by
  intro h
  have hPath : mailboxDir ++ [uidvalidityFileName] = [] ++ [Checkpoint.fileName] := h
  have hName := (Path.child_inj.mp hPath).2
  revert hName
  decide

theorem Marked.of_lookup {mailbox : Text} (h : Marked server staging mailbox)
    (hKept : ∀ path : Path, next.lookup (path ++ [uidvalidityFileName]) = staging.lookup (path ++ [uidvalidityFileName])) :
    Marked server next mailbox := by
  obtain ⟨delimiter, uidvalidity, hServer, hRead⟩ := h
  exact ⟨delimiter, uidvalidity, hServer, by rw [readUidvalidity_congr (hKept _), hRead]⟩

theorem Marked.createDirAll {mailbox : Text} {dir : Path} (h : Marked server staging mailbox)
    (hMade : staging.createDirAll dir = some next) : Marked server next mailbox := by
  obtain ⟨delimiter, uidvalidity, hServer, hRead⟩ := h
  refine ⟨delimiter, uidvalidity, hServer, ?_⟩
  rw [readUidvalidity] at hRead
  split at hRead
  · rename_i contents hFile
    rw [readUidvalidity, FileTree.createDirAll_keeps hMade hFile]
    exact hRead
  · cases hRead

theorem Marked.write (hServer : server.Independent) {mailbox : Text} (h : Marked server staging mailbox)
    {state : MailboxState} (hState : server state.mailbox = some (state.delimiter, state.uidvalidity))
    (hWrite : writeUidvalidity staging state.mailboxRelpath state.uidvalidity = some next) :
    Marked server next mailbox := by
  obtain ⟨delimiter, uidvalidity, hFound, hRead⟩ := h
  refine ⟨delimiter, uidvalidity, hFound, ?_⟩
  by_cases hShared : sanitizeMailboxPath mailbox delimiter = state.mailboxRelpath
  · rw [hShared, readUidvalidity_write hWrite, hServer.markers _ _ _ _ _ _ hFound hState hShared]
  · rw [readUidvalidity_congr, hRead]
    rw [FileTree.lookup_write hWrite, if_neg]
    exact fun hPath => hShared (Path.child_inj.mp hPath).1

/-- The marked mailboxes, and the messages of some of them that have their rows. -/
structure Progress (server : Server) (checked : List Text) (done : List (Text × UInt32)) (staging : FileTree Text) : Prop where
  marked : ∀ mailbox ∈ checked, Marked server staging mailbox
  rows : ∀ mailbox uid, (mailbox, uid) ∈ done → mailbox ∈ checked ∧ Checkpoint.HasRow staging mailbox uid

variable {checked : List Text} {done : List (Text × UInt32)}

theorem Progress.createDirAll (h : Progress server checked done staging) {dir : Path}
    (hMade : staging.createDirAll dir = some next) : Progress server checked done next where
  marked mailbox hMailbox := (h.marked mailbox hMailbox).createDirAll hMade
  rows mailbox uid hDone := by
    obtain ⟨hMarked, contents, uidvalidity, hFile, hLine⟩ := h.rows mailbox uid hDone
    exact ⟨hMarked, contents, uidvalidity, FileTree.createDirAll_keeps hMade hFile, hLine⟩

theorem Progress.clear (hServer : server.Independent) (h : Progress server checked done staging) {mailbox : Text}
    (hFresh : ∀ uid, (mailbox, uid) ∉ done) (hClear : Checkpoint.clear staging mailbox = some next) :
    Progress server checked done next where
  marked other hOther := (h.marked other hOther).of_lookup fun path =>
    Checkpoint.lookup_clear hClear (markerPath_ne path)
  rows other uid hDone := by
    obtain ⟨hMarked, hRow⟩ := h.rows other uid hDone
    obtain ⟨delimiter, uidvalidity, hFound, -⟩ := h.marked other hMarked
    refine ⟨hMarked, hRow.clear (hServer.names other _ hFound) ?_ hClear⟩
    rintro rfl
    exact hFresh uid hDone

theorem Progress.write (hServer : server.Independent) (h : Progress server checked done staging) {state : MailboxState}
    (hState : server state.mailbox = some (state.delimiter, state.uidvalidity))
    (hWrite : writeUidvalidity staging state.mailboxRelpath state.uidvalidity = some next) :
    Progress server (state.mailbox :: checked) done next where
  marked mailbox hMailbox := by
    obtain rfl | hOld := List.mem_cons.mp hMailbox
    · exact ⟨state.delimiter, state.uidvalidity, hState, readUidvalidity_write hWrite⟩
    · exact (h.marked mailbox hOld).write hServer hState hWrite
  rows mailbox uid hDone := by
    obtain ⟨hMarked, contents, uidvalidity, hFile, hLine⟩ := h.rows mailbox uid hDone
    refine ⟨List.mem_cons_of_mem _ hMarked, contents, uidvalidity, ?_, hLine⟩
    rw [FileTree.lookup_write hWrite, if_neg (markerPath_ne _).symm, hFile]

theorem Progress.fresh_of_stale (h : Progress server checked done staging) {state : MailboxState}
    (hState : server state.mailbox = some (state.delimiter, state.uidvalidity))
    (hStale : isStale (readUidvalidity staging state.mailboxRelpath) state.uidvalidity = true) (uid : UInt32) :
    (state.mailbox, uid) ∉ done := by
  intro hDone
  obtain ⟨delimiter, uidvalidity, hFound, hRead⟩ := h.marked _ (h.rows _ uid hDone).1
  obtain ⟨rfl, rfl⟩ : state.delimiter = delimiter ∧ state.uidvalidity = uidvalidity := by
    simpa using hState.symm.trans hFound
  rw [MailboxState.mailboxRelpath, hRead] at hStale
  simp [isStale] at hStale

theorem Progress.checkMailbox (hServer : server.Independent) (h : Progress server checked done staging)
    {state : MailboxState} (hState : server state.mailbox = some (state.delimiter, state.uidvalidity)) :
    Progress server checked done (checkMailbox staging state).1 ∧
      ((checkMailbox staging state).2 = true →
        Progress server (state.mailbox :: checked) done (checkMailbox staging state).1) := by
  rw [EmailImport.checkMailbox]
  cases hMade : staging.createDirAll state.mailboxRelpath with
  | none => exact ⟨h, nofun⟩
  | some made =>
    have hDirs := h.createDirAll hMade
    have hCleared (cleared : FileTree Text)
        (hClear : (if isStale (readUidvalidity made state.mailboxRelpath) state.uidvalidity then
          Checkpoint.clear made state.mailbox else some made) = some cleared) : Progress server checked done cleared := by
      split at hClear
      · rename_i hStale
        exact hDirs.clear hServer (hDirs.fresh_of_stale hState hStale) hClear
      · cases hClear
        exact hDirs
    dsimp only
    split
    · exact ⟨hDirs, nofun⟩
    · rename_i cleared hClear
      have hBefore := hCleared cleared hClear
      split
      · exact ⟨hBefore, nofun⟩
      · rename_i written hWrite
        have hAfter := hBefore.write hServer hState hWrite
        refine ⟨?_, fun _ => hAfter⟩
        exact ⟨fun mailbox hMailbox => hAfter.marked mailbox (List.mem_cons_of_mem _ hMailbox),
          fun mailbox uid hDone => ⟨(hBefore.rows mailbox uid hDone).1, (hAfter.rows mailbox uid hDone).2⟩⟩

theorem Progress.checkMailboxes (hServer : server.Independent) {states : List MailboxState}
    (hStates : ∀ state ∈ states, server state.mailbox = some (state.delimiter, state.uidvalidity))
    (h : Progress server checked done staging) :
    Progress server checked done (checkMailboxes staging states).1 ∧
      ((checkMailboxes staging states).2 = true →
        Progress server (checked ++ states.map MailboxState.mailbox) done (checkMailboxes staging states).1) := by
  induction states generalizing staging checked with
  | nil =>
    refine ⟨h, fun _ => ?_⟩
    rw [List.map_nil, List.append_nil]
    exact h
  | cons state states ih =>
    have hFirst := h.checkMailbox hServer (hStates state List.mem_cons_self)
    rw [EmailImport.checkMailboxes]
    split
    · rename_i next hCheck
      rw [hCheck] at hFirst
      have hLater : ∀ other ∈ states, server other.mailbox = some (other.delimiter, other.uidvalidity) :=
        fun other hOther => hStates other (List.mem_cons_of_mem state hOther)
      refine ⟨(ih hLater hFirst.1).1, fun hOk => ?_⟩
      have hRest := (ih hLater (hFirst.2 rfl)).2 hOk
      refine ⟨fun mailbox hMailbox => hRest.marked mailbox ?_, fun mailbox uid hDone => ?_⟩
      · simpa [or_left_comm] using hMailbox
      · obtain ⟨hMarked, hRow⟩ := hRest.rows mailbox uid hDone
        exact ⟨by simpa [or_left_comm] using hMarked, hRow⟩
    · rename_i next hCheck
      rw [hCheck] at hFirst
      exact ⟨hFirst.1, nofun⟩

end Markers

/-! ## Runs -/

namespace LegacyRuns

variable {server : Server}

def Inv (server : Server) (s : LegacyRuns) : Prop :=
  Progress server (s.appended.map Prod.fst ++ s.pending.map PendingMailbox.mailbox) s.appended s.staging

theorem inv_start (staging : FileTree Text) : Inv server (start staging) :=
  ⟨fun _ h => absurd h List.not_mem_nil, fun _ _ h => absurd h List.not_mem_nil⟩

theorem inv_of_progress {s : LegacyRuns} (checked : List Text) (h : Progress server checked s.appended s.staging)
    (hPending : ∀ pending ∈ s.pending, pending.mailbox ∈ checked) : Inv server s where
  marked mailbox hMailbox := by
    obtain hAppended | hPendingMailbox := List.mem_append.mp hMailbox
    · obtain ⟨⟨_, uid⟩, hDone, rfl⟩ := List.mem_map.mp hAppended
      exact h.marked _ (h.rows _ uid hDone).1
    · obtain ⟨pending, hMem, rfl⟩ := List.mem_map.mp hPendingMailbox
      exact h.marked _ (hPending pending hMem)
  rows mailbox uid hDone :=
    ⟨List.mem_append_left _ (List.mem_map.mpr ⟨_, hDone, rfl⟩), (h.rows mailbox uid hDone).2⟩

theorem Inv.append {s : LegacyRuns} (h : Inv server s) {pending : PendingMailbox} {uid : UInt32} {outcome : AppendOutcome}
    (hPending : pending ∈ s.pending) (hKept : Kept s (.append pending uid outcome)) {next : FileTree Text}
    (hAppend : Checkpoint.append s.staging ⟨pending.mailbox, some pending.uidvalidity, uid⟩ outcome = some next) :
    Inv server { s with
      staging := next
      appended := if outcome = .ok then (pending.mailbox, uid) :: s.appended else s.appended } := by
  have hMarkers (path : Path) :
      next.lookup (path ++ [uidvalidityFileName]) = s.staging.lookup (path ++ [uidvalidityFileName]) := by
    rw [FileTree.lookup_write hAppend, if_neg (markerPath_ne path)]
  have hRows (mailbox : Text) (other : UInt32) (hDone : (mailbox, other) ∈ s.appended) :
      Checkpoint.HasRow next mailbox other := (h.rows mailbox other hDone).2.append hAppend
  have hMailbox : pending.mailbox ∈ s.appended.map Prod.fst ++ s.pending.map PendingMailbox.mailbox :=
    List.mem_append_right _ (List.mem_map_of_mem hPending)
  apply inv_of_progress (s.appended.map Prod.fst ++ s.pending.map PendingMailbox.mailbox)
  · refine ⟨fun mailbox hChecked => (h.marked mailbox hChecked).of_lookup hMarkers, fun mailbox other hDone => ?_⟩
    dsimp only at hDone
    split at hDone
    · rename_i hOk
      subst hOk
      obtain hNew | hOld := List.mem_cons.mp hDone
      · cases hNew
        exact ⟨hMailbox, Checkpoint.hasRow_append (hKept rfl) hAppend⟩
      · exact ⟨(h.rows mailbox other hOld).1, hRows mailbox other hOld⟩
    · exact ⟨(h.rows mailbox other hDone).1, hRows mailbox other hDone⟩
  · exact fun other hOther => List.mem_append_right _ (List.mem_map_of_mem hOther)

/-- A run that begins has checked every mailbox, and has something to do if all checks passed and the checkpoint loads. -/
theorem begin_cases {s next : LegacyRuns} {states : List MailboxState} (h : step server s (.begin states) = some next) :
    (∀ state ∈ states, server state.mailbox = some (state.delimiter, state.uidvalidity)) ∧
      (next = { s with staging := (checkMailboxes s.staging states).1, pending := [] } ∨
        ∃ entries, (checkMailboxes s.staging states).2 = true ∧
          Checkpoint.load (checkMailboxes s.staging states).1 = some entries ∧
          next = { s with
            staging := (checkMailboxes s.staging states).1
            pending := pendingMailboxes (fun state =>
              ((Checkpoint.doneUids entries).filter fun done => done.1 = state.mailbox).map Prod.snd) states }) := by
  rw [LegacyRuns.step] at h
  split at h
  · rename_i hStates
    refine ⟨hStates, ?_⟩
    split at h
    · rename_i staging hCheck
      cases h
      exact .inl (by rw [hCheck])
    · rename_i staging hCheck
      split at h
      · cases h
        exact .inl (by rw [hCheck])
      · rename_i entries hLoad
        cases h
        exact .inr ⟨entries, by rw [hCheck], by rw [hCheck]; exact hLoad, by rw [hCheck]⟩
  · cases h

theorem Inv.step (hServer : server.Independent) {s next : LegacyRuns} {event : LegacyEvent} (h : Inv server s)
    (hKept : Kept s event) (hStep : step server s event = some next) : Inv server next := by
  cases event with
  | begin states =>
    obtain ⟨hStates, hNext⟩ := begin_cases hStep
    have hChecked := Progress.checkMailboxes hServer hStates h
    obtain rfl | ⟨entries, hOk, -, rfl⟩ := hNext
    · exact inv_of_progress _ hChecked.1 (fun _ hPending => nomatch hPending)
    · apply inv_of_progress _ (hChecked.2 hOk)
      intro pending hPending
      obtain ⟨state, hState, -, rfl⟩ := mem_pendingMailboxes.mp hPending
      exact List.mem_append_right _ (List.mem_map_of_mem hState)
  | append pending uid outcome =>
    rw [LegacyRuns.step] at hStep
    split at hStep
    · rename_i hPending
      split at hStep
      · cases hStep
        exact h
      · rename_i staging hAppend
        cases hStep
        exact h.append hPending.1 hKept hAppend
    · cases hStep

theorem Inv.not_pending (hServer : server.Independent) {s next : LegacyRuns} (h : Inv server s)
    {states : List MailboxState} (hStep : LegacyRuns.step server s (.begin states) = some next) {mailbox : Text}
    {uid : UInt32} (hDone : (mailbox, uid) ∈ s.appended) {pending : PendingMailbox} (hPending : pending ∈ next.pending)
    (hMailbox : pending.mailbox = mailbox) : uid ∉ pending.uids := by
  obtain ⟨hStates, rfl | ⟨entries, hOk, hLoad, rfl⟩⟩ := begin_cases hStep
  · cases hPending
  · have hChecked := Progress.checkMailboxes hServer hStates h
    obtain ⟨state, hState, -, rfl⟩ := mem_pendingMailboxes.mp hPending
    obtain rfl := hMailbox
    have hRow := ((hChecked.2 hOk).rows _ uid hDone).2
    have hMem := hRow.mem_doneUids (hServer.names _ _ (hStates state hState)) hLoad
    intro hMissing
    refine ((mem_missingUids _ _ _).mp hMissing).2 ?_
    exact List.mem_map.mpr ⟨_, List.mem_filter.mpr ⟨hMem, by simp⟩, rfl⟩

/-- Over any sequence of runs on an independent server, a message whose row was appended is
pending in no later run. -/
theorem appended_not_pending (server : Server) (hServer : server.Independent) (staging : FileTree Text)
    (schedule : List LegacyEvent) (s : LegacyRuns) (hKept : Within (LegacyRuns.step server) Kept (start staging) schedule)
    (hRun : run (LegacyRuns.step server) (start staging) schedule = some s) (states : List MailboxState)
    (next : LegacyRuns) (hStep : LegacyRuns.step server s (.begin states) = some next) :
    ∀ mailbox uid, (mailbox, uid) ∈ s.appended → ∀ pending ∈ next.pending, pending.mailbox = mailbox →
      uid ∉ pending.uids := by
  have hInv : Inv server s :=
    run_invariant (Inv server) (fun _ _ _ h hKept hStep => h.step hServer hKept hStep) hKept hRun (inv_start staging)
  intro mailbox uid hDone pending hPending hMailbox
  exact hInv.not_pending hServer hStep hDone hPending hMailbox

theorem appended_not_pending_inbox :
    ∃ s next : LegacyRuns, ("INBOX".toList, 1) ∈ s.appended ∧ next.pending ≠ [] ∧
      ∀ pending ∈ next.pending, pending.mailbox = "INBOX".toList → 1 ∉ pending.uids := by
  let server : Server := fun name =>
    if name = "INBOX".toList then some (some ['/'], 7) else if name = "Sent".toList then some (some ['/'], 9) else none
  have hFound (name : Text) (found : Option Text × UInt32) (h : server name = some found) :
      (name = "INBOX".toList ∧ found = (some ['/'], 7)) ∨ (name = "Sent".toList ∧ found = (some ['/'], 9)) := by
    simp only [server] at h
    split at h
    · exact .inl ⟨‹_›, (Option.some.inj h).symm⟩
    · split at h
      · exact .inr ⟨‹_›, (Option.some.inj h).symm⟩
      · cases h
  have hServer : server.Independent := by
    constructor
    · intro mailbox found h
      obtain ⟨rfl, -⟩ | ⟨rfl, -⟩ := hFound mailbox found h
      · decide
      · decide
    · intro mailbox other delimiter otherDelimiter uidvalidity otherValidity h hOther hPath
      obtain ⟨rfl, ⟨⟩⟩ | ⟨rfl, ⟨⟩⟩ := hFound _ _ h
      · obtain ⟨rfl, ⟨⟩⟩ | ⟨rfl, ⟨⟩⟩ := hFound _ _ hOther
        · rfl
        · revert hPath
          decide
      · obtain ⟨rfl, ⟨⟩⟩ | ⟨rfl, ⟨⟩⟩ := hFound _ _ hOther
        · revert hPath
          decide
        · rfl
  let states : List MailboxState := [⟨"INBOX".toList, some ['/'], 7, [1]⟩, ⟨"Sent".toList, some ['/'], 9, [1]⟩]
  let inbox : PendingMailbox := ⟨"INBOX".toList, ["inbox".toList], 7, [1]⟩
  let schedule : List LegacyEvent := [.begin states, .append inbox 1 .ok]
  have hKept : Within (LegacyRuns.step server) Kept (start FileTree.empty) schedule := by
    refine ⟨trivial, ?_⟩
    rintro _ ⟨⟩
    exact ⟨fun _ => by decide +kernel, fun _ _ => trivial⟩
  have hEnds : ((run (LegacyRuns.step server) (start FileTree.empty) schedule).bind fun s =>
      (LegacyRuns.step server s (.begin states)).map fun next => (s, next)).map
        (fun ends => decide (("INBOX".toList, 1) ∈ ends.1.appended ∧ ends.2.pending ≠ [])) = some true := by
    decide +kernel
  obtain ⟨⟨s, next⟩, hBoth, hCheck⟩ := Option.map_eq_some_iff.mp hEnds
  obtain ⟨_, hRun, hNext⟩ := Option.bind_eq_some_iff.mp hBoth
  obtain ⟨_, hStep, ⟨⟩⟩ := Option.map_eq_some_iff.mp hNext
  obtain ⟨hDone, hSome⟩ := of_decide_eq_true hCheck
  exact ⟨s, next, hDone, hSome, appended_not_pending server hServer _ schedule s hKept hRun states next hStep _ 1 hDone⟩

/-- Both names sanitize to `sent-items`, so each mailbox finds the other one's marker. -/
theorem shared_marker_clears_checkpoint :
    ∃ (states : List MailboxState) (pending : PendingMailbox) (s next : LegacyRuns),
      run (LegacyRuns.step fun name => (states.find? fun state => state.mailbox = name).map fun state =>
        (state.delimiter, state.uidvalidity)) (start FileTree.empty) [.begin states, .append pending 1 .ok] = some s ∧
      LegacyRuns.step (fun name => (states.find? fun state => state.mailbox = name).map fun state =>
        (state.delimiter, state.uidvalidity)) s (.begin states) = some next ∧
      (pending.mailbox, 1) ∈ s.appended ∧ pending ∈ next.pending ∧ 1 ∈ pending.uids := by
  let states : List MailboxState :=
    [⟨"Sent Items".toList, some ['/'], 7, [1]⟩, ⟨"Sent-Items".toList, some ['/'], 9, [1]⟩]
  let server : Server := fun name => (states.find? fun state => state.mailbox = name).map fun state =>
    (state.delimiter, state.uidvalidity)
  let pending : PendingMailbox := ⟨"Sent Items".toList, ["sent-items".toList], 7, [1]⟩
  have hEnds : ((run (LegacyRuns.step server) (start FileTree.empty) [.begin states, .append pending 1 .ok]).bind fun s =>
      (LegacyRuns.step server s (.begin states)).map fun next => (s, next)).map
        (fun ends => decide ((pending.mailbox, 1) ∈ ends.1.appended ∧ pending ∈ ends.2.pending)) = some true := by
    decide +kernel
  obtain ⟨⟨s, next⟩, hBoth, hCheck⟩ := Option.map_eq_some_iff.mp hEnds
  obtain ⟨_, hRun, hNext⟩ := Option.bind_eq_some_iff.mp hBoth
  obtain ⟨_, hStep, ⟨⟩⟩ := Option.map_eq_some_iff.mp hNext
  obtain ⟨hDone, hPending⟩ := of_decide_eq_true hCheck
  exact ⟨states, pending, s, next, hRun, hStep, hDone, hPending, by decide⟩

end LegacyRuns

end Pigeon.EmailImport
