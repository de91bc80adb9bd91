import Pigeon.EmailImport.Deliver
import Pigeon.EmailImport.Flush
import Pigeon.EmailImport.Gather

/-! # Import runs one after another over one ledger

A run loads the ledger, or seeds it, leaves out what the ledger holds and appends a row for
each message whose objects are all pushed. The ledger object is replaced by whatever
snapshot an upload brings, also one that an earlier run left behind.
-/
namespace Pigeon.EmailImport

open Library
open Text (AppendOutcome)

set_option autoImplicit false

inductive DeliveryAction where
  | pushed (key : Text)
  | pushFailed (key : Text)
  | recorded (entry : LedgerEntry)
deriving DecidableEq, Repr

/-- The loop over the objects, which stops at the first failure; and whether all were pushed. -/
def pushObjects (push : Path × Text → Bool) : List (Path × Text) → List DeliveryAction × Bool
  | [] => ([], true)
  | object :: objects =>
    if push object then
      let (actions, allPushed) := pushObjects push objects
      (.pushed object.2 :: actions, allPushed)
    else ([.pushFailed object.2], false)

def Message.ledgerEntry (m : Message) (now : UtcTime) : LedgerEntry where
  mailbox := m.mailbox
  uidvalidity := m.uidvalidity
  uid := m.uid
  ingestedAt := utcTimestamp now

theorem Message.rowable_ledgerEntry {m : Message} (hName : '\t' ∉ m.mailbox ∧ '\n' ∉ m.mailbox) (now : UtcTime) :
    (m.ledgerEntry now).Rowable := by
  intro c hMem
  obtain hMem | hMem := List.mem_append.mp hMem
  · exact ⟨fun hTab => hName.1 (hTab ▸ hMem), fun hFeed => hName.2 (hFeed ▸ hMem)⟩
  · constructor
    · rintro rfl
      exact not_mem_utcTimestamp now (by decide) (by decide) hMem
    · rintro rfl
      exact not_mem_utcTimestamp now (by decide) (by decide) hMem

theorem Message.getLast_row (m : Message) (now : UtcTime) :
    (Ledger.row (m.ledgerEntry now)).getLast? ≠ some '\r' := by
  have hShape : Ledger.row (m.ledgerEntry now) =
      (m.mailbox ++ '\t' :: (Text.showU32 m.uidvalidity ++ '\t' :: (Text.showU32 m.uid ++ ['\t']))) ++
        utcTimestamp now := by simp [Ledger.row, Message.ledgerEntry]
  rw [hShape, List.getLast?_append, getLast?_utcTimestamp, Option.some_or]
  decide

/-- `deliver_one` up to the garbage collection, as it acts on the destination and the ledger. -/
def deliverOne (parse : Bytes → Option (List MessagePart)) (email : Text) (scratch : FileTree Bytes) (m : Message)
    (push : Path × Text → Bool) (now : UtcTime) : List DeliveryAction :=
  if scratch.contains m.emlPath then
    let (actions, allPushed) := pushObjects push (stageObjects parse email scratch m).2
    if allPushed then actions ++ [.recorded (m.ledgerEntry now)] else actions
  else []

/-- What of the row itself the append leaves in the text. -/
def writtenPart (row : Text) : AppendOutcome → Text
  | .ok => row
  | .failed written => row.take written

structure ImportHistory where
  remote : Option Text
  workingCopy : Text
  /-- Snapshots whose upload has started and not completed. -/
  inFlight : List Text
  pending : List PendingMailbox
  /-- What the current run left out of its pending work. -/
  excluded : List LedgerKey
  /-- What the seed and the deliveries so far recorded. -/
  recorded : List LedgerKey

inductive HistoryEvent where
  /-- `gather_pending` in ledger mode; the listing is read when there is no ledger. -/
  | begin (states : List MailboxState) (listing : List Text) (now : UtcTime)
  | deliver (email : Text) (m : Message) (scratch : FileTree Bytes) (push : Path × Text → Bool) (now : UtcTime)
      (outcome : AppendOutcome)
  | snapshot
  | uploaded (index : Nat) (ok : Bool)

namespace ImportHistory

def start : ImportHistory where
  remote := none
  workingCopy := []
  inFlight := []
  pending := []
  excluded := []
  recorded := []

def loadOrSeed (s : ImportHistory) (states : List MailboxState) (listing : List Text) (now : UtcTime) :
    Ledger × ImportHistory :=
  match s.remote with
  | some contents => (Ledger.parse contents, s)
  | none =>
    let seeded := (seedFromListing listing (states.map MailboxState.seedMailbox) (utcTimestamp now)).1
    (seeded, { s with remote := some seeded.serialize, recorded := seeded.keys ++ s.recorded })

/-- What an action leaves behind; an append counts as recorded when it succeeds, and also
when as much of its row was written as reads back. -/
def perform (outcome : AppendOutcome) (s : ImportHistory) : DeliveryAction → ImportHistory
  | .recorded entry =>
    let contents := Ledger.appendWith s.workingCopy entry outcome
    { s with
      workingCopy := contents
      recorded := if outcome = .ok ∨ entry.key ∈ Ledger.parse contents then entry.key :: s.recorded else s.recorded }
  | _ => s

def step (parse : Bytes → Option (List MessagePart)) (s : ImportHistory) : HistoryEvent → Option ImportHistory
  | .begin states listing now =>
    let (ledger, s) := s.loadOrSeed states listing now
    let pending := pendingMailboxes (fun state => ledger.ingestedUids state.mailbox state.uidvalidity) states
    some { s with workingCopy := ledger.serialize, pending, excluded := excludedKeys states pending }
  | .deliver email m scratch push now outcome =>
    if ∃ pending ∈ s.pending, pending.mailbox = m.mailbox ∧ pending.mailboxRelpath = m.relpath ∧
        pending.uidvalidity = m.uidvalidity ∧ m.uid ∈ pending.uids then
      some ((deliverOne parse email scratch m push now).foldl (perform outcome) s)
    else none
  | .snapshot => some { s with inFlight := s.workingCopy :: s.inFlight }
  | .uploaded index ok =>
    match s.inFlight[index]? with
    | some contents =>
      some { s with
        inFlight := s.inFlight.eraseIdx index
        remote := if ok then some contents else s.remote }
    | none => none

/-- Mailbox names fit in a row, and an append after a torn row completes it to no row but
its own or one that is recorded. -/
def Kept (parse : Bytes → Option (List MessagePart)) (s : ImportHistory) : HistoryEvent → Prop
  | .begin states _ _ => ∀ state ∈ states, '\t' ∉ state.mailbox ∧ '\n' ∉ state.mailbox
  | .deliver email m scratch push now outcome =>
    ∀ entry, .recorded entry ∈ deliverOne parse email scratch m push now →
      ∀ read, Ledger.parseLine (Text.lastLine s.workingCopy ++ writtenPart (Ledger.row entry) outcome) = some read →
        read.key = entry.key ∨ read.key ∈ s.recorded
  | .snapshot | .uploaded _ _ => True

end ImportHistory

/-! ## One delivery -/

section Deliver

variable {parse : Bytes → Option (List MessagePart)} {email : Text} {scratch : FileTree Bytes} {m : Message}
  {push : Path × Text → Bool} {now : UtcTime}

theorem not_recorded_of_pushObjects {objects : List (Path × Text)} {entry : LedgerEntry} :
    .recorded entry ∉ (pushObjects push objects).1 := by
  induction objects with
  | nil => exact List.not_mem_nil
  | cons object objects ih =>
    rw [pushObjects]
    split
    · simpa using ih
    · simp

theorem pushed_of_allPushed {objects : List (Path × Text)} (h : (pushObjects push objects).2 = true)
    {object : Path × Text} (hObject : object ∈ objects) : .pushed object.2 ∈ (pushObjects push objects).1 := by
  induction objects with
  | nil => cases hObject
  | cons first objects ih =>
    rw [pushObjects] at h ⊢
    split
    · rename_i hPush
      rw [if_pos hPush] at h
      obtain rfl | hRest := List.mem_cons.mp hObject
      · exact List.mem_cons_self
      · exact List.mem_cons_of_mem _ (ih h hRest)
    · rename_i hPush
      rw [if_neg hPush] at h
      cases h

theorem eq_of_concat_eq {α : Type*} {xs before after : List α} {x y : α} (h : xs ++ [x] = before ++ y :: after)
    (hFresh : y ∉ xs) : before = xs ∧ y = x := by
  cases after using List.reverseRecOn with
  | nil =>
    obtain ⟨hInit, hLast⟩ := List.append_inj' h rfl
    exact ⟨hInit.symm, (List.head_eq_of_cons_eq hLast).symm⟩
  | append_singleton rest last =>
    have hSplit : xs ++ [x] = (before ++ y :: rest) ++ [last] := by simpa using h
    have hInit : xs = before ++ y :: rest := (List.append_inj' hSplit rfl).1
    exact absurd (hInit ▸ List.mem_append_right before List.mem_cons_self) hFresh

theorem deliverOne_recorded {before after : List DeliveryAction} {entry : LedgerEntry}
    (h : deliverOne parse email scratch m push now = before ++ .recorded entry :: after) :
    entry = m.ledgerEntry now ∧ m.emlKey email ∈ objectKeys parse email scratch m ∧
      ∀ key ∈ objectKeys parse email scratch m, .pushed key ∈ before := by
  rw [deliverOne] at h
  split at h
  · rename_i hContains
    have hActions := @not_recorded_of_pushObjects push (stageObjects parse email scratch m).2 entry
    dsimp only at h
    split at h
    · rename_i hAll
      obtain ⟨rfl, hEntry⟩ := eq_of_concat_eq h hActions
      cases hEntry
      refine ⟨rfl, ?_, ?_⟩
      · simp [objectKeys, stageObjects, hContains]
      · intro key hKey
        obtain ⟨object, hObject, rfl⟩ := List.mem_map.mp hKey
        exact pushed_of_allPushed hAll hObject
    · exact absurd (h ▸ by simp) hActions
  · simp at h

end Deliver

/-! ## What an append can bring to the ledger -/

theorem mem_lines_appendLine {contents row line : Text} {outcome : AppendOutcome} (hRow : '\n' ∉ row)
    (hEnd : row.getLast? ≠ some '\r') (hNonempty : row ≠ [])
    (h : line ∈ Text.lines (Text.appendLine contents row outcome)) :
    line ∈ Text.lines contents ∨ line = Text.lastLine contents ++ writtenPart row outcome := by
  have hWhole (hLines : line ∈ Text.lines (contents ++ row ++ ['\n'])) :
      line ∈ Text.lines contents ∨ line = Text.lastLine contents ++ row := by
    rw [← Text.stripCr_of_getLast_ne _ hEnd, ← Text.stripCr_append _ _ hNonempty]
    exact Text.mem_lines_append_newline hRow hLines
  cases outcome with
  | ok =>
    rw [Text.appendLine, ← List.append_assoc] at h
    exact hWhole h
  | failed written =>
    rw [Text.appendLine] at h
    obtain hPart | hAll := Nat.lt_or_ge row.length written
    · rw [List.take_of_length_le (by rw [List.length_append]; exact hPart), ← List.append_assoc] at h
      rw [writtenPart, List.take_of_length_le (Nat.le_of_lt hPart)]
      exact hWhole h
    · rw [List.take_append_of_le_length hAll] at h
      exact Text.mem_lines_append (fun hMem => hRow (List.mem_of_mem_take hMem)) h

theorem Ledger.mem_parse_appendWith {contents : Text} {entry : LedgerEntry} {outcome : AppendOutcome} {key : LedgerKey}
    (hRow : '\n' ∉ Ledger.row entry) (hEnd : (Ledger.row entry).getLast? ≠ some '\r')
    (h : key ∈ Ledger.parse (Ledger.appendWith contents entry outcome)) :
    key ∈ Ledger.parse contents ∨
      ∃ read, Ledger.parseLine (Text.lastLine contents ++ writtenPart (Ledger.row entry) outcome) = some read ∧
        read.key = key := by
  rw [Ledger.mem_parse] at h
  obtain ⟨line, hLine, read, hRead, rfl⟩ := h
  obtain hOld | rfl := mem_lines_appendLine hRow hEnd (Ledger.row_ne_nil entry) hLine
  · exact .inl ((Ledger.mem_parse _ _).mpr ⟨line, hOld, read, hRead, rfl⟩)
  · exact .inr ⟨read, hRead, rfl⟩

namespace ImportHistory

variable {parse : Bytes → Option (List MessagePart)}

/-- Every key that the text reads as is recorded. -/
def Reads (s : ImportHistory) (contents : Text) : Prop := ∀ key ∈ Ledger.parse contents, key ∈ s.recorded

structure Inv (s : ImportHistory) : Prop where
  remote : ∀ contents ∈ s.remote, s.Reads contents
  workingCopy : s.Reads s.workingCopy
  inFlight : ∀ contents ∈ s.inFlight, s.Reads contents
  names : ∀ pending ∈ s.pending, '\t' ∉ pending.mailbox ∧ '\n' ∉ pending.mailbox
  excluded : ∀ key ∈ s.excluded, key ∈ s.recorded

theorem inv_start : Inv start where
  remote _ h := nomatch h
  workingCopy key h := by
    rw [Ledger.mem_parse] at h
    obtain ⟨line, hLine, -⟩ := h
    cases hLine
  inFlight _ h := nomatch h
  names _ h := nomatch h
  excluded _ h := nomatch h

theorem Inv.record {s : ImportHistory} (h : Inv s) {recorded : List LedgerKey} (hMore : s.recorded ⊆ recorded) :
    Inv { s with recorded } where
  remote contents hRemote key hKey := hMore (h.remote contents hRemote key hKey)
  workingCopy key hKey := hMore (h.workingCopy key hKey)
  inFlight contents hFlight key hKey := hMore (h.inFlight contents hFlight key hKey)
  names := h.names
  excluded key hKey := hMore (h.excluded key hKey)

theorem Inv.append {s : ImportHistory} (h : Inv s) {m : Message} {now : UtcTime} {outcome : AppendOutcome}
    (hName : '\t' ∉ m.mailbox ∧ '\n' ∉ m.mailbox)
    (hKept : ∀ read, Ledger.parseLine
      (Text.lastLine s.workingCopy ++ writtenPart (Ledger.row (m.ledgerEntry now)) outcome) = some read →
      read.key = (m.ledgerEntry now).key ∨ read.key ∈ s.recorded) :
    Inv (perform outcome s (.recorded (m.ledgerEntry now))) := by
  let contents := Ledger.appendWith s.workingCopy (m.ledgerEntry now) outcome
  let recorded := if outcome = .ok ∨ (m.ledgerEntry now).key ∈ Ledger.parse contents
    then (m.ledgerEntry now).key :: s.recorded else s.recorded
  have hMore : s.recorded ⊆ recorded := by
    intro key hKey
    simp only [recorded]
    split
    · exact List.mem_cons_of_mem _ hKey
    · exact hKey
  have hReads (key : LedgerKey) (hKey : key ∈ Ledger.parse contents) : key ∈ recorded := by
    obtain hOld | ⟨read, hRead, rfl⟩ :=
      Ledger.mem_parse_appendWith (Ledger.not_mem_row (Message.rowable_ledgerEntry hName now))
        (m.getLast_row now) hKey
    · exact hMore (h.workingCopy key hOld)
    · obtain hOwn | hRecorded := hKept read hRead
      · rw [hOwn] at hKey ⊢
        simp only [recorded, hKey, or_true, if_true, List.mem_cons_self]
      · exact hMore hRecorded
  exact { h.record hMore with workingCopy := hReads }

theorem Inv.deliver {s : ImportHistory} (h : Inv s) {email : Text} {m : Message} {scratch : FileTree Bytes}
    {push : Path × Text → Bool} {now : UtcTime} {outcome : AppendOutcome}
    (hName : '\t' ∉ m.mailbox ∧ '\n' ∉ m.mailbox) (hKept : Kept parse s (.deliver email m scratch push now outcome)) :
    Inv ((deliverOne parse email scratch m push now).foldl (perform outcome) s) := by
  have hQuiet (objects : List (Path × Text)) : (pushObjects push objects).1.foldl (perform outcome) s = s := by
    induction objects with
    | nil => rfl
    | cons object objects ih =>
      rw [pushObjects]
      split
      · exact ih
      · rfl
  rw [Kept] at hKept
  rw [deliverOne] at hKept ⊢
  split at hKept
  · rename_i hContains
    rw [if_pos hContains]
    dsimp only at hKept ⊢
    split at hKept
    · rename_i hAll
      rw [if_pos hAll, List.foldl_append, hQuiet]
      exact h.append hName (hKept (m.ledgerEntry now) (List.mem_append_right _ List.mem_cons_self))
    · rename_i hAll
      rw [if_neg hAll, hQuiet]
      exact h
  · rename_i hContains
    rw [if_neg hContains]
    exact h

theorem rowable_seed {listing : List Text} {states : List MailboxState} {now : UtcTime}
    (hNames : ∀ state ∈ states, '\t' ∉ state.mailbox ∧ '\n' ∉ state.mailbox) {entry : LedgerEntry}
    (h : entry ∈ (seedFromListing listing (states.map MailboxState.seedMailbox) (utcTimestamp now)).1.entries) :
    entry.Rowable := by
  obtain ⟨path, -, hSeed⟩ := List.mem_filterMap.mp (Ledger.mem_entries_insertAll h)
  obtain ⟨hIngested, owner, hOwner, hMailbox, -⟩ := mem_seedEntry hSeed
  obtain ⟨state, hState, rfl⟩ := List.mem_map.mp hOwner
  have hName : '\t' ∉ entry.mailbox ∧ '\n' ∉ entry.mailbox := hMailbox ▸ hNames state hState
  intro c hMem
  obtain hMem | hMem := List.mem_append.mp hMem
  · exact ⟨fun hTab => hName.1 (hTab ▸ hMem), fun hFeed => hName.2 (hFeed ▸ hMem)⟩
  · rw [hIngested] at hMem
    constructor
    · rintro rfl
      exact not_mem_utcTimestamp now (by decide) (by decide) hMem
    · rintro rfl
      exact not_mem_utcTimestamp now (by decide) (by decide) hMem

theorem Inv.loadOrSeed {s : ImportHistory} (h : Inv s) {states : List MailboxState} {listing : List Text} {now : UtcTime}
    (hNames : ∀ state ∈ states, '\t' ∉ state.mailbox ∧ '\n' ∉ state.mailbox) :
    Inv (s.loadOrSeed states listing now).2 ∧
      (∀ key ∈ (s.loadOrSeed states listing now).1, key ∈ (s.loadOrSeed states listing now).2.recorded) ∧
      ∀ entry ∈ (s.loadOrSeed states listing now).1.entries, entry.Rowable := by
  rw [ImportHistory.loadOrSeed]
  cases hRemote : s.remote with
  | some contents => exact ⟨h, h.remote contents hRemote, fun entry hEntry => Ledger.rowable_parse hEntry⟩
  | none =>
    let seeded := (seedFromListing listing (states.map MailboxState.seedMailbox) (utcTimestamp now)).1
    have hRowable : ∀ entry ∈ seeded.entries, entry.Rowable := fun entry hEntry => rowable_seed hNames hEntry
    have hSeeded : ∀ key ∈ seeded, key ∈ seeded.keys ++ s.recorded := fun key hKey =>
      List.mem_append_left _ (Std.ExtTreeMap.mem_keys.mpr hKey)
    refine ⟨?_, hSeeded, hRowable⟩
    have hMore := h.record (List.subset_append_right seeded.keys s.recorded)
    refine { hMore with remote := ?_ }
    rintro _ ⟨⟩ key hKey
    exact hSeeded key (Ledger.mem_of_mem_parse_serialize hRowable hKey)

theorem Inv.begin {s : ImportHistory} (h : Inv s) {states : List MailboxState} {listing : List Text} {now : UtcTime}
    {next : ImportHistory} (hNames : ∀ state ∈ states, '\t' ∉ state.mailbox ∧ '\n' ∉ state.mailbox)
    (hStep : step parse s (.begin states listing now) = some next) : Inv next := by
  have hLoad : Inv (s.loadOrSeed states listing now).2 ∧ _ := h.loadOrSeed hNames
  obtain ⟨hLoaded, hKeys, hRowable⟩ := hLoad
  cases hStep
  refine { hLoaded with workingCopy := ?_, names := ?_, excluded := ?_ }
  · intro key hKey
    exact hKeys key (Ledger.mem_of_mem_parse_serialize hRowable hKey)
  · intro pending hPending
    obtain ⟨state, hState, -, rfl⟩ := mem_pendingMailboxes.mp hPending
    exact hNames state hState
  · intro key hKey
    obtain ⟨state, -, uid, hUid, rfl⟩ := mem_excludedKeys hKey
    exact hKeys _ ((Ledger.mem_ingestedUids _ _ _ _).mp hUid)

theorem Inv.step {s next : ImportHistory} {event : HistoryEvent} (h : Inv s) (hKept : Kept parse s event)
    (hStep : step parse s event = some next) : Inv next := by
  cases event with
  | begin states listing now => exact h.begin hKept hStep
  | deliver email m scratch push now outcome =>
    rw [ImportHistory.step] at hStep
    split at hStep
    · rename_i hPending
      cases hStep
      obtain ⟨pending, hMem, hMailbox, -⟩ := hPending
      exact h.deliver (hMailbox ▸ h.names pending hMem) hKept
    · cases hStep
  | snapshot =>
    cases hStep
    refine { h with inFlight := ?_ }
    intro contents hFlight
    obtain rfl | hOld := List.mem_cons.mp hFlight
    · exact h.workingCopy
    · exact h.inFlight contents hOld
  | uploaded index ok =>
    rw [ImportHistory.step] at hStep
    split at hStep
    · rename_i contents hUpload
      cases hStep
      have hFlight : ∀ other ∈ s.inFlight.eraseIdx index, s.Reads other :=
        fun other hOther => h.inFlight other (List.eraseIdx_subset hOther)
      have hRemote : ∀ other ∈ (if ok then some contents else s.remote), s.Reads other := by
        intro other hOther
        cases ok with
        | true =>
          cases hOther
          exact h.inFlight contents (List.mem_of_getElem? hUpload)
        | false => exact h.remote other hOther
      exact { h with remote := hRemote, inFlight := hFlight }
    · cases hStep

theorem kept_of_terminated {s : ImportHistory} {email : Text} {m : Message} {scratch : FileTree Bytes}
    {push : Path × Text → Bool} {now : UtcTime} {outcome : AppendOutcome} (hLine : Text.lastLine s.workingCopy = [])
    (hName : '\t' ∉ m.mailbox ∧ '\n' ∉ m.mailbox) : Kept parse s (.deliver email m scratch push now outcome) := by
  intro entry hEntry read hRead
  obtain ⟨before, after, hActions⟩ := List.append_of_mem hEntry
  obtain ⟨rfl, -⟩ := deliverOne_recorded hActions
  have hRowable := Message.rowable_ledgerEntry hName now
  left
  rw [hLine, List.nil_append] at hRead
  refine Ledger.key_of_parseLine hRowable ?_ hRead
  cases outcome with
  | ok => exact List.prefix_rfl
  | failed written => exact List.take_prefix written _

/-- Over any sequence of runs whose appends are kept: what a run leaves out of its pending
work was recorded by the seed or by a delivery, and a delivery records a message only after
its `.eml` and its staged attachments were pushed. -/
theorem excluded_recorded_of_kept (parse : Bytes → Option (List MessagePart)) (schedule : List HistoryEvent)
    (s : ImportHistory) (hKept : Within (ImportHistory.step parse) (Kept parse) start schedule)
    (hRun : run (ImportHistory.step parse) start schedule = some s) :
    (∀ key ∈ s.excluded, key ∈ s.recorded) ∧
      ∀ email scratch m push now before entry after,
        deliverOne parse email scratch m push now = before ++ .recorded entry :: after →
          entry.key = (m.mailbox, m.uidvalidity, m.uid) ∧ m.emlKey email ∈ objectKeys parse email scratch m ∧
            ∀ key ∈ objectKeys parse email scratch m, .pushed key ∈ before := by
  have hInv : Inv s := run_invariant Inv (fun _ _ _ h hKept hStep => h.step hKept hStep) hKept hRun inv_start
  refine ⟨hInv.excluded, ?_⟩
  intro email scratch m push now before entry after hActions
  obtain ⟨rfl, hPushed⟩ := deliverOne_recorded hActions
  exact ⟨rfl, hPushed⟩

theorem excluded_recorded_of_kept_inbox :
    ∃ s : ImportHistory, s.excluded = [("INBOX".toList, 7, 1)] ∧ ∀ key ∈ s.excluded, key ∈ s.recorded := by
  let parse : Bytes → Option (List MessagePart) := fun _ => some [⟨some "a.pdf".toList, [9]⟩]
  let now : UtcTime := ⟨2026, 9, 1, 12, 0, 0⟩
  let m : Message := ⟨"INBOX".toList, some ['/'], 7, 1, [1]⟩
  let states : List MailboxState := [⟨"INBOX".toList, some ['/'], 7, [1]⟩]
  let scratch : FileTree Bytes := (m.fetch FileTree.empty).getD FileTree.empty
  let schedule : List HistoryEvent := [.begin states [] now, .deliver "a@example.com".toList m scratch (fun _ => true) now .ok,
    .snapshot, .uploaded 0 true, .begin states [] now]
  have hKept : Within (ImportHistory.step parse) (Kept parse) start schedule := by
    refine ⟨by simp [Kept, states], ?_⟩
    rintro _ ⟨⟩
    refine ⟨kept_of_terminated (by decide +kernel) (by decide), ?_⟩
    intro _ _
    exact ⟨trivial, fun _ _ => ⟨trivial, fun _ _ => ⟨by simp [Kept, states], fun _ _ => trivial⟩⟩⟩
  have hEnds : (run (ImportHistory.step parse) start schedule).map (fun s => s.excluded) =
      some [("INBOX".toList, 7, 1)] := by decide +kernel
  obtain ⟨s, hRun, hExcluded⟩ := Option.map_eq_some_iff.mp hEnds
  exact ⟨s, hExcluded, (excluded_recorded_of_kept parse schedule s hKept hRun).1⟩

/-- The row of `2020` completes what a failed append left of a row of `Archive/2019`, and the
next run takes the result for a row of `Archive/2020`. -/
theorem torn_row_excludes_undelivered :
    ∃ (states : List MailboxState) (schedule : List HistoryEvent) (s : ImportHistory),
      (∀ state ∈ states, ∀ c ∈ state.mailbox, c ≠ '\t' ∧ c ≠ '\r' ∧ c ≠ '\n' ∧ c ≠ '#') ∧
        (∀ event ∈ schedule, ∀ seen listing now, event = .begin seen listing now → seen = states) ∧
        run (ImportHistory.step fun _ => none) start schedule = some s ∧
        ∃ key ∈ s.excluded, key ∉ s.recorded := by
  let now : UtcTime := ⟨2026, 9, 1, 12, 0, 0⟩
  let first : Message := ⟨"Archive/2019".toList, some ['/'], 7, 1, [1]⟩
  let second : Message := ⟨"2020".toList, some ['/'], 7, 5, [1]⟩
  let states : List MailboxState := [⟨"Archive/2019".toList, some ['/'], 7, [1]⟩, ⟨"2020".toList, some ['/'], 7, [5]⟩,
    ⟨"Archive/2020".toList, some ['/'], 7, [5]⟩]
  let scratch (m : Message) : FileTree Bytes := (m.fetch FileTree.empty).getD FileTree.empty
  let schedule : List HistoryEvent := [.begin states [] now,
    .deliver "a@example.com".toList first (scratch first) (fun _ => true) now (.failed 8),
    .deliver "a@example.com".toList second (scratch second) (fun _ => true) now .ok,
    .snapshot, .uploaded 0 true, .begin states [] now]
  have hEnds : (run (ImportHistory.step fun _ => none) start schedule).map (fun s =>
      decide (("Archive/2020".toList, 7, 5) ∈ s.excluded ∧ ("Archive/2020".toList, 7, 5) ∉ s.recorded)) =
      some true := by decide +kernel
  obtain ⟨s, hRun, hCheck⟩ := Option.map_eq_some_iff.mp hEnds
  obtain ⟨hExcluded, hUnrecorded⟩ := of_decide_eq_true hCheck
  have hNames : (states.all fun state => state.mailbox.all fun c =>
      decide (c ≠ '\t' ∧ c ≠ '\r' ∧ c ≠ '\n' ∧ c ≠ '#')) = true := by decide
  refine ⟨states, schedule, s, fun state hState c hc => ?_, ?_, hRun, _, hExcluded, hUnrecorded⟩
  · exact of_decide_eq_true (List.all_eq_true.mp (List.all_eq_true.mp hNames state hState) c hc)
  · simp [schedule]

end ImportHistory

end Pigeon.EmailImport
