import Pigeon.EmailImport.LedgerRuns
import Pigeon.EmailImport.Torn

/-! # Ledger runs and legacy runs over one staging directory

Both modes append a row to `.pushed` for each delivery, and only a legacy run reads it. Only a legacy
run keeps the marker that tells when the rows of a mailbox are of an older UIDVALIDITY, so the rows
that a ledger run appends can outlive theirs.
-/
namespace Pigeon.EmailImport

open Library
open Text (AppendOutcome)

set_option autoImplicit false

structure ModeRuns where
  staging : FileTree Text
  pending : List PendingMailbox
  /-- What the current run left out of its pending work, where it is a legacy run. -/
  excluded : List LedgerKey
  /-- Every delivery so far, under the UIDVALIDITY of its run. -/
  delivered : List LedgerKey

inductive ModeEvent where
  | legacyBegin (states : List MailboxState)
  | ledgerBegin (states : List MailboxState) (ledger : Ledger)
  | deliver (pending : PendingMailbox) (uid : UInt32) (outcome : AppendOutcome)
  /-- What fetching, unpacking and removing local copies leave of the tree. -/
  | files (next : FileTree Text)

namespace ModeRuns

def start : ModeRuns where
  staging := FileTree.empty
  pending := []
  excluded := []
  delivered := []

/-- `gather_pending` under `--legacy`; no work is pending where it fails. -/
def gatherLegacy (s : ModeRuns) (states : List MailboxState) : ModeRuns :=
  match checkMailboxes s.staging states with
  | (staging, false) => { s with staging, pending := [], excluded := [] }
  | (staging, true) =>
    match Checkpoint.load staging with
    | none => { s with staging, pending := [], excluded := [] }
    | some entries =>
      let uidsFor (state : MailboxState) : List UInt32 :=
        ((Checkpoint.doneUids entries).filter fun done => done.1 = state.mailbox).map Prod.snd
      let pending := pendingMailboxes uidsFor states
      { s with staging, pending, excluded := excludedKeys states pending }

/-- The checkpoint row of a delivery is appended in both modes, and an append that fails is not a
failed delivery. -/
def deliver (s : ModeRuns) (pending : PendingMailbox) (uid : UInt32) (outcome : AppendOutcome) : ModeRuns :=
  { s with
    staging := (Checkpoint.append s.staging ⟨pending.mailbox, some pending.uidvalidity, uid⟩ outcome).getD s.staging
    delivered := (pending.mailbox, pending.uidvalidity, uid) :: s.delivered }

def step (s : ModeRuns) : ModeEvent → Option ModeRuns
  | .legacyBegin states => some (s.gatherLegacy states)
  | .ledgerBegin states ledger =>
    let pending := pendingMailboxes (fun state => ledger.ingestedUids state.mailbox state.uidvalidity) states
    some { s with pending, excluded := [] }
  | .deliver pending uid outcome =>
    if pending ∈ s.pending ∧ uid ∈ pending.uids then some (s.deliver pending uid outcome) else none
  | .files next =>
    if next.lookup [Checkpoint.fileName] = s.staging.lookup [Checkpoint.fileName] then some { s with staging := next }
    else none

end ModeRuns

/-- When the loop gets to a mailbox, its marker names another UIDVALIDITY or all of its rows are of
the current one. -/
def MarkersTell (staging : FileTree Text) : List MailboxState → Prop
  | [] => True
  | state :: states =>
    (isStale (readUidvalidity staging state.mailboxRelpath) state.uidvalidity = true ∨
      ∀ entry ∈ (Checkpoint.load staging).getD [], entry.mailbox = state.mailbox →
        entry.uidvalidity = some state.uidvalidity) ∧
      MarkersTell (checkMailbox staging state).1 states

/-- The markers tell which rows are old, and an append leaves no line that is read as anything but a
delivery. -/
def ModeRuns.Kept (s : ModeRuns) : ModeEvent → Prop
  | .legacyBegin states => (∀ state ∈ states, '\n' ∉ state.mailbox) ∧ MarkersTell s.staging states
  | .ledgerBegin states _ => ∀ state ∈ states, '\n' ∉ state.mailbox
  | .deliver pending uid outcome =>
    ∀ read, Checkpoint.parseLine (Text.lastLine (Checkpoint.contents s.staging) ++
        writtenPart (Checkpoint.formatRow ⟨pending.mailbox, some pending.uidvalidity, uid⟩) outcome) = some read →
      ∃ uidvalidity, read.uidvalidity = some uidvalidity ∧
        (read.mailbox, uidvalidity, read.uid) ∈ (pending.mailbox, pending.uidvalidity, uid) :: s.delivered
  | .files _ => True

/-! ## What the loop over the mailboxes leaves of the checkpoint -/

namespace Checkpoint

theorem parseLine_shape {line : Text} {entry : CheckpointEntry} (h : parseLine line = some entry) :
    '\t' ∉ entry.mailbox ∧ ∃ rest, line = entry.mailbox ++ '\t' :: rest := by
  have hLine : ['\t'].intercalate (line.splitOn '\t') = line := List.intercalate_splitOn '\t'
  have hFree (field : Text) (hField : field ∈ line.splitOn '\t') : '\t' ∉ field := Text.not_mem_of_mem_splitOn hField
  rw [parseLine] at h
  split at h
  · cases h
  · split at h
    · rename_i mailbox uid hFields
      obtain ⟨_, -, rfl⟩ := Option.map_eq_some_iff.mp h
      rw [hFields] at hLine hFree
      exact ⟨hFree mailbox (by simp), uid, by rw [← hLine]; simp [List.intercalate]⟩
    · rename_i mailbox uidvalidity uid hFields
      split at h
      · obtain ⟨_, -, rfl⟩ := Option.map_eq_some_iff.mp h
        rw [hFields] at hLine hFree
        exact ⟨hFree mailbox (by simp), uidvalidity ++ '\t' :: uid, by rw [← hLine]; simp [List.intercalate]⟩
      · cases h
    · cases h

theorem name_of_mem_parse {text : Text} {entry : CheckpointEntry} (h : entry ∈ parse text) :
    '\t' ∉ entry.mailbox ∧ '\n' ∉ entry.mailbox := by
  obtain ⟨line, hLine, hRead⟩ := List.mem_filterMap.mp h
  obtain ⟨hTab, rest, rfl⟩ := parseLine_shape hRead
  exact ⟨hTab, fun hMem => Text.not_mem_of_mem_lines hLine (List.mem_append_left _ hMem)⟩

/-- Whatever rows the new tree is read as, the old one was read as them too. -/
def Shrinks (staging next : FileTree Text) : Prop :=
  ∀ left, load next = some left → ∃ entries, load staging = some entries ∧ left ⊆ entries

theorem Shrinks.of_load {staging next : FileTree Text} (h : load next = load staging) : Shrinks staging next :=
  fun left hLeft => ⟨left, h ▸ hLeft, List.Subset.refl left⟩

theorem Shrinks.trans {staging made next : FileTree Text} (h : Shrinks staging made) (hNext : Shrinks made next) :
    Shrinks staging next := by
  intro left hLeft
  obtain ⟨middle, hMiddle, hSub⟩ := hNext left hLeft
  obtain ⟨entries, hEntries, hSubMiddle⟩ := h middle hMiddle
  exact ⟨entries, hEntries, List.Subset.trans hSub hSubMiddle⟩

theorem load_of_lookup {staging next : FileTree Text} (h : next.lookup [fileName] = staging.lookup [fileName]) :
    load next = load staging := by
  rw [load, load, h]

theorem shrinks_createDirAll {staging made : FileTree Text} {dir : Path} (hMade : staging.createDirAll dir = some made) :
    Shrinks staging made := by
  have hLookup := FileTree.lookup_createDirAll hMade [fileName]
  split at hLookup
  · intro left hLeft
    rw [load, hLookup] at hLeft
    cases hLeft
  · exact .of_load (load_of_lookup hLookup)

theorem load_writeUidvalidity {staging next : FileTree Text} {dir : Path} {value : UInt32}
    (hWrite : writeUidvalidity staging dir value = some next) : load next = load staging :=
  load_of_lookup (by rw [FileTree.lookup_write hWrite, if_neg (markerPath_ne dir).symm])

theorem load_clear {staging next : FileTree Text} {mailbox : Text} {entries : List CheckpointEntry}
    (hLoad : load staging = some entries) (hClear : clear staging mailbox = some next) :
    load next = some (entries.filter fun entry => entry.mailbox ≠ mailbox) := by
  have hNames : ∀ entry ∈ entries, '\t' ∉ entry.mailbox ∧ '\n' ∉ entry.mailbox := by
    intro entry hEntry
    rw [load] at hLoad
    split at hLoad
    · cases hLoad
      cases hEntry
    · cases hLoad
      exact name_of_mem_parse hEntry
    · cases hLoad
  simp only [clear, hLoad] at hClear
  split at hClear
  · rename_i hSame
    cases hClear
    rw [hLoad, List.filter_eq_self.mpr (List.length_filter_eq_length_iff.mp hSame)]
  · rw [load, FileTree.lookup_write hClear, if_pos rfl]
    exact congrArg some (parse_rows fun entry hEntry => hNames entry (List.mem_filter.mp hEntry).1)

theorem formatRow_ne_nil (entry : CheckpointEntry) : formatRow entry ≠ [] := by
  rw [formatRow]
  split
  · simp
  · simp

theorem exists_load_of_mem_lines {staging : FileTree Text} {line : Text} {entry : CheckpointEntry}
    (hLine : line ∈ Text.lines (contents staging)) (hRead : parseLine line = some entry) :
    ∃ entries, load staging = some entries ∧ entry ∈ entries := by
  rw [contents] at hLine
  split at hLine
  · rename_i text hFile
    exact ⟨parse text, by rw [load, hFile], List.mem_filterMap.mpr ⟨line, hLine, hRead⟩⟩
  · cases hLine

end Checkpoint

section Loop

variable {staging next : FileTree Text} {state : MailboxState} {states : List MailboxState}

theorem readUidvalidity_createDirAll {dir : Path} (hMade : staging.createDirAll dir = some next) :
    readUidvalidity next dir = readUidvalidity staging dir := by
  apply readUidvalidity_congr
  rw [FileTree.lookup_createDirAll hMade, if_neg]
  intro hPrefix
  have hLength := hPrefix.length_le
  rw [List.length_append, List.length_singleton] at hLength
  omega

theorem checkMailbox_rows {ok : Bool} (hCheck : checkMailbox staging state = (next, ok)) :
    Checkpoint.Shrinks staging next ∧
      (ok = true → isStale (readUidvalidity staging state.mailboxRelpath) state.uidvalidity = true →
        ∀ left, Checkpoint.load next = some left → ∀ entry ∈ left, entry.mailbox ≠ state.mailbox) := by
  rw [checkMailbox] at hCheck
  split at hCheck
  · cases hCheck
    exact ⟨.of_load rfl, fun hOk => absurd hOk Bool.false_ne_true⟩
  · rename_i made hMade
    have hFirst := Checkpoint.shrinks_createDirAll hMade
    rw [readUidvalidity_createDirAll hMade] at hCheck
    dsimp only at hCheck
    split at hCheck
    · cases hCheck
      exact ⟨hFirst, fun hOk => absurd hOk Bool.false_ne_true⟩
    · rename_i cleared hCleared
      have hSecond : Checkpoint.Shrinks made cleared ∧
          (isStale (readUidvalidity staging state.mailboxRelpath) state.uidvalidity = true →
            ∀ left, Checkpoint.load cleared = some left → ∀ entry ∈ left, entry.mailbox ≠ state.mailbox) := by
        split at hCleared
        · cases hLoad : Checkpoint.load made with
          | none =>
            rw [Checkpoint.clear, hLoad] at hCleared
            cases hCleared
          | some entries =>
            have hLeft := Checkpoint.load_clear hLoad hCleared
            constructor
            · intro left hSome
              rw [hLeft] at hSome
              cases hSome
              exact ⟨entries, hLoad, List.filter_subset_self _⟩
            · intro _ left hSome entry hEntry
              rw [hLeft] at hSome
              cases hSome
              simpa using (List.mem_filter.mp hEntry).2
        · rename_i hFresh
          cases hCleared
          exact ⟨.of_load rfl, fun hStale => absurd hStale hFresh⟩
      split at hCheck
      · cases hCheck
        exact ⟨hFirst.trans hSecond.1, fun hOk => absurd hOk Bool.false_ne_true⟩
      · rename_i written hWrite
        cases hCheck
        have hLoad := Checkpoint.load_writeUidvalidity hWrite
        refine ⟨(hFirst.trans hSecond.1).trans (.of_load hLoad), fun _ hStale left hLeft => ?_⟩
        exact hSecond.2 hStale left (hLoad ▸ hLeft)

theorem checkMailboxes_shrinks {ok : Bool} (hCheck : checkMailboxes staging states = (next, ok)) :
    Checkpoint.Shrinks staging next := by
  induction states generalizing staging with
  | nil =>
    cases hCheck
    exact .of_load rfl
  | cons state states ih =>
    rw [checkMailboxes] at hCheck
    split at hCheck
    · rename_i middle hFirst
      exact (checkMailbox_rows hFirst).1.trans (ih hCheck)
    · rename_i middle hFirst
      cases hCheck
      exact (checkMailbox_rows hFirst).1

theorem checkMailboxes_current (hTell : MarkersTell staging states) (hCheck : checkMailboxes staging states = (next, true))
    {left : List CheckpointEntry} (hLeft : Checkpoint.load next = some left) :
    ∀ state ∈ states, ∀ entry ∈ left, entry.mailbox = state.mailbox → entry.uidvalidity = some state.uidvalidity := by
  induction states generalizing staging with
  | nil => simp
  | cons first states ih =>
    rw [checkMailboxes] at hCheck
    split at hCheck
    · rename_i middle hFirst
      rw [MarkersTell, hFirst] at hTell
      refine List.forall_mem_cons.mpr ⟨fun entry hEntry hMailbox => ?_, ih hTell.2 hCheck⟩
      obtain ⟨rows, hRows, hSub⟩ := checkMailboxes_shrinks hCheck left hLeft
      obtain hStale | hCurrent := hTell.1
      · exact absurd hMailbox ((checkMailbox_rows hFirst).2 rfl hStale rows hRows entry (hSub hEntry))
      · obtain ⟨entries, hEntries, hSubFirst⟩ := (checkMailbox_rows hFirst).1 rows hRows
        rw [hEntries] at hCurrent
        exact hCurrent entry (hSubFirst (hSub hEntry)) hMailbox
    · cases hCheck

end Loop

/-! ## Runs -/

namespace ModeRuns

def Delivered (s : ModeRuns) (entry : CheckpointEntry) : Prop :=
  ∃ uidvalidity, entry.uidvalidity = some uidvalidity ∧ (entry.mailbox, uidvalidity, entry.uid) ∈ s.delivered

structure Inv (s : ModeRuns) : Prop where
  rows : ∀ entries, Checkpoint.load s.staging = some entries → ∀ entry ∈ entries, s.Delivered entry
  names : ∀ pending ∈ s.pending, '\n' ∉ pending.mailbox
  excluded : ∀ key ∈ s.excluded, key ∈ s.delivered

theorem inv_start : Inv start where
  rows entries hLoad entry hEntry := by
    cases hLoad
    cases hEntry
  names _ h := nomatch h
  excluded _ h := nomatch h

theorem names_of_pendingMailboxes {states : List MailboxState} {uidsFor : MailboxState → List UInt32}
    (hNames : ∀ state ∈ states, '\n' ∉ state.mailbox) :
    ∀ pending ∈ pendingMailboxes uidsFor states, '\n' ∉ pending.mailbox := by
  intro pending hPending
  obtain ⟨state, hState, -, rfl⟩ := mem_pendingMailboxes.mp hPending
  exact hNames state hState

theorem Inv.legacy {s : ModeRuns} (h : Inv s) {states : List MailboxState} (hNames : ∀ state ∈ states, '\n' ∉ state.mailbox)
    (hTell : MarkersTell s.staging states) : Inv (s.gatherLegacy states) := by
  rw [gatherLegacy]
  split
  · rename_i staging hCheck
    refine ⟨fun left hLeft entry hEntry => ?_, nofun, nofun⟩
    obtain ⟨entries, hLoad, hSub⟩ := checkMailboxes_shrinks hCheck left hLeft
    exact h.rows entries hLoad entry (hSub hEntry)
  · rename_i staging hCheck
    have hRows : ∀ left, Checkpoint.load staging = some left → ∀ entry ∈ left, s.Delivered entry := by
      intro left hLeft entry hEntry
      obtain ⟨entries, hLoad, hSub⟩ := checkMailboxes_shrinks hCheck left hLeft
      exact h.rows entries hLoad entry (hSub hEntry)
    split
    · exact ⟨hRows, nofun, nofun⟩
    · rename_i left hLeft
      refine ⟨hRows, names_of_pendingMailboxes hNames, fun key hKey => ?_⟩
      obtain ⟨state, hState, uid, hUid, rfl⟩ := mem_excludedKeys hKey
      obtain ⟨⟨_, _⟩, hDone, rfl⟩ := List.mem_map.mp hUid
      obtain ⟨hEntries, hMailbox⟩ := List.mem_filter.mp hDone
      obtain ⟨entry, hEntry, ⟨⟩⟩ := List.mem_map.mp hEntries
      have hMailbox : entry.mailbox = state.mailbox := of_decide_eq_true hMailbox
      obtain ⟨uidvalidity, hValidity, hDelivered⟩ := hRows left hLeft entry hEntry
      have hCurrent := checkMailboxes_current hTell hCheck hLeft state hState entry hEntry hMailbox
      rw [hValidity, Option.some.injEq] at hCurrent
      rwa [hMailbox, hCurrent] at hDelivered

theorem Inv.deliver {s : ModeRuns} (h : Inv s) {pending : PendingMailbox} {uid : UInt32} {outcome : AppendOutcome}
    (hPending : pending ∈ s.pending) (hKept : Kept s (.deliver pending uid outcome)) :
    Inv (s.deliver pending uid outcome) := by
  have hMore {entry : CheckpointEntry} (hDelivered : s.Delivered entry) :
      (s.deliver pending uid outcome).Delivered entry := by
    obtain ⟨uidvalidity, hValidity, hMem⟩ := hDelivered
    exact ⟨uidvalidity, hValidity, List.mem_cons_of_mem _ hMem⟩
  refine ⟨fun entries hLoad entry hEntry => ?_, h.names, fun key hKey => List.mem_cons_of_mem _ (h.excluded key hKey)⟩
  rw [ModeRuns.deliver] at hLoad
  cases hAppend : Checkpoint.append s.staging ⟨pending.mailbox, some pending.uidvalidity, uid⟩ outcome with
  | none =>
    rw [hAppend, Option.getD_none] at hLoad
    exact hMore (h.rows entries hLoad entry hEntry)
  | some staging =>
    rw [hAppend, Option.getD_some, Checkpoint.load, FileTree.lookup_write hAppend, if_pos rfl] at hLoad
    cases hLoad
    obtain ⟨line, hLine, hRead⟩ := List.mem_filterMap.mp hEntry
    have hRow : '\n' ∉ Checkpoint.formatRow ⟨pending.mailbox, some pending.uidvalidity, uid⟩ :=
      Checkpoint.not_mem_formatRow (h.names pending hPending)
    obtain hOld | rfl := mem_lines_appendLine hRow (Checkpoint.getLast?_formatRow _) (Checkpoint.formatRow_ne_nil _) hLine
    · obtain ⟨before, hBefore, hMem⟩ := Checkpoint.exists_load_of_mem_lines hOld hRead
      exact hMore (h.rows before hBefore entry hMem)
    · exact hKept entry hRead

theorem Inv.step {s next : ModeRuns} {event : ModeEvent} (h : Inv s) (hKept : Kept s event)
    (hStep : step s event = some next) : Inv next := by
  cases event with
  | legacyBegin states =>
    cases hStep
    exact h.legacy hKept.1 hKept.2
  | ledgerBegin states ledger =>
    cases hStep
    exact ⟨h.rows, names_of_pendingMailboxes hKept, nofun⟩
  | deliver pending uid outcome =>
    rw [ModeRuns.step] at hStep
    split at hStep
    · rename_i hPending
      cases hStep
      exact h.deliver hPending.1 hKept
    · cases hStep
  | files tree =>
    rw [ModeRuns.step] at hStep
    split at hStep
    · rename_i hSame
      cases hStep
      refine ⟨fun entries hLoad => h.rows entries ?_, h.names, h.excluded⟩
      rw [← hLoad]
      exact (Checkpoint.load_of_lookup hSame).symm
    · cases hStep

theorem kept_of_ok {s : ModeRuns} {pending : PendingMailbox} {uid : UInt32}
    (hLine : Text.lastLine (Checkpoint.contents s.staging) = []) (hName : '\t' ∉ pending.mailbox) :
    Kept s (.deliver pending uid .ok) := by
  intro loaded hRead
  rw [hLine, List.nil_append, writtenPart, Checkpoint.parseLine_formatRow hName] at hRead
  cases hRead
  exact ⟨pending.uidvalidity, rfl, List.mem_cons_self⟩

/-- Over any runs of both modes whose legacy runs can tell the old rows by their markers, and whose
appends leave no line that is read as another message: what a legacy run leaves out was delivered
under the UIDVALIDITY that the mailbox has now. -/
theorem excluded_delivered_of_kept (schedule : List ModeEvent) (s : ModeRuns)
    (hKept : Within ModeRuns.step Kept start schedule) (hRun : run ModeRuns.step start schedule = some s) :
    ∀ key ∈ s.excluded, key ∈ s.delivered :=
  (run_invariant Inv (fun _ _ _ h hKept hStep => h.step hKept hStep) hKept hRun inv_start).excluded

/-- Both runs of both modes see the UIDVALIDITY 7. -/
theorem excluded_delivered_of_kept_inbox :
    ∃ s : ModeRuns, ("INBOX".toList, 7, 1) ∈ s.excluded ∧ ∀ key ∈ s.excluded, key ∈ s.delivered := by
  let pending : PendingMailbox := ⟨"INBOX".toList, ["inbox".toList], 7, [1]⟩
  let schedule : List ModeEvent :=
    [.ledgerBegin [⟨"INBOX".toList, some ['/'], 7, [1]⟩] (Ledger.insertAll ∅ []), .deliver pending 1 .ok,
      .legacyBegin [⟨"INBOX".toList, some ['/'], 7, [1, 2]⟩]]
  have hKept : Within ModeRuns.step Kept start schedule := by
    have hName : '\n' ∉ "INBOX".toList := by decide
    refine ⟨List.forall_mem_singleton.mpr hName, ?_⟩
    rintro _ ⟨⟩
    refine ⟨kept_of_ok (by decide +kernel) (by decide), fun next hNext => ?_⟩
    rw [ModeRuns.step] at hNext
    split at hNext
    · cases hNext
      exact ⟨⟨List.forall_mem_singleton.mpr hName, .inr (by decide +kernel), trivial⟩, fun _ _ => trivial⟩
    · cases hNext
  have hEnds : (run ModeRuns.step start schedule).map (fun s => decide (("INBOX".toList, 7, 1) ∈ s.excluded)) =
      some true := by decide +kernel
  obtain ⟨s, hRun, hCheck⟩ := Option.map_eq_some_iff.mp hEnds
  exact ⟨s, of_decide_eq_true hCheck, excluded_delivered_of_kept schedule s hKept hRun⟩

/-- The row of a ledger run under the UIDVALIDITY 7 hides UID 1 from a legacy run under 8. -/
theorem ledger_row_hides_mail_after_reset :
    ∃ (schedule : List ModeEvent) (s : ModeRuns), run ModeRuns.step start schedule = some s ∧
      ("INBOX".toList, 8, 1) ∈ s.excluded ∧ ("INBOX".toList, 8, 1) ∉ s.delivered := by
  let pending : PendingMailbox := ⟨"INBOX".toList, ["inbox".toList], 7, [1]⟩
  let schedule : List ModeEvent :=
    [.ledgerBegin [⟨"INBOX".toList, some ['/'], 7, [1]⟩] (Ledger.insertAll ∅ []), .deliver pending 1 .ok,
      .legacyBegin [⟨"INBOX".toList, some ['/'], 8, [1]⟩]]
  have hEnds : (run ModeRuns.step start schedule).map
      (fun s => decide (("INBOX".toList, 8, 1) ∈ s.excluded ∧ ("INBOX".toList, 8, 1) ∉ s.delivered)) = some true := by
    decide +kernel
  obtain ⟨s, hRun, hCheck⟩ := Option.map_eq_some_iff.mp hEnds
  exact ⟨schedule, s, hRun, of_decide_eq_true hCheck⟩

end ModeRuns

end Pigeon.EmailImport
