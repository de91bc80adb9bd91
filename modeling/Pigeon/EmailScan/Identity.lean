import Pigeon.Library.Fallible
import Pigeon.EmailScan.Status
import Pigeon.EmailScan.Bodystructure

/-! # Scanning an identity

A scan lists the mailboxes of an account, compares their UIDs with the ledger and counts the attachments of what is new. It
downloads no message, so all it can be wrong about is the import that would follow: what it calls new is what that import
would fetch.
-/
namespace Pigeon.EmailScan

open Library
open EmailImport (MailboxState PendingMailbox Ledger UtcTime utcTimestamp missingUids mem_missingUids pendingMailboxes)
open Bodystructure (AttachmentCount Session countNewAttachments withinCap fetchBatchSize)

set_option autoImplicit false

structure ListedName where
  name : Text
  delimiter : Option Text
  noSelect : Bool
deriving DecidableEq, Repr

/-- What a session answers; a search gives a set of UIDs. -/
structure MailServer where
  list : Except Text (List ListedName)
  examine : Text → Except Text (Option UInt32)
  uidSearch : Text → Except Text { uids : List UInt32 // uids.Nodup }

def listMailbox (server : MailServer) (listed : ListedName) : Except Text MailboxState :=
  match server.examine listed.name with
  | .error err => .error ("failed to open '".toList ++ listed.name ++ "' read-only: ".toList ++ err)
  | .ok uidvalidity =>
    match server.uidSearch listed.name with
    | .error err => .error ("failed to search '".toList ++ listed.name ++ "': ".toList ++ err)
    | .ok uids => .ok ⟨listed.name, listed.delimiter, uidvalidity.getD 0, uids.val⟩

def listMailboxStates (server : MailServer) : Except Text (List MailboxState) :=
  match server.list with
  | .error err => .error ("failed to list mailboxes: ".toList ++ err)
  | .ok names => (names.filter fun listed => !listed.noSelect).mapM (listMailbox server)

/-- The row of a mailbox and its new UIDs. -/
def diff (mailbox : Text) (uidvalidity : UInt32) (server ingested : List UInt32) (scannedAt : Text) : MailboxStatus × List UInt32 :=
  ({ mailbox
     uidvalidity := some uidvalidity
     serverMessages := .ofNat server.length
     ingested := .ofNat ingested.length
     newMessages := .ofNat (missingUids server ingested).length
     newAttachments := some 0
     removedOnServer := .ofNat (ingested.filter fun uid => !server.contains uid).length
     lastScannedAt := scannedAt
     lastInSyncAt := none }, missingUids server ingested)

def diffRows (ledger : Ledger) (states : List MailboxState) (scannedAt : Text) : List (MailboxStatus × List UInt32) :=
  states.map fun state =>
    diff state.mailbox state.uidvalidity state.serverUids (ledger.ingestedUids state.mailbox state.uidvalidity) scannedAt

def totalNew (rows : List (MailboxStatus × List UInt32)) : Nat := (rows.map fun row => row.2.length).sum

/-- The rounds of a count are as many as its batches can need. -/
def countUids (session : Session) (mailbox : Text) (uids : List UInt32) : AttachmentCount :=
  (countNewAttachments session (String.ofList mailbox) uids (Bisection.weight (uids.toChunks fetchBatchSize))).getD ⟨0, 0⟩

/-- A row with its attachments counted, and how many structures were unparsed. -/
def countRow (sessions : Text → Except Text Session) (row : MailboxStatus × List UInt32) : MailboxStatus × Nat :=
  if row.2.isEmpty then (row.1, 0)
  else
    match sessions row.1.mailbox with
    | .ok session =>
      let count := countUids session row.1.mailbox row.2
      ({ row.1 with newAttachments := some (.ofNat count.attachments) }, count.unparsed)
    | .error _ => ({ row.1 with newAttachments := none }, 0)

def countRows (reopen : Except Text (Text → Except Text Session)) (rows : List (MailboxStatus × List UInt32)) :
    Except Text (List (MailboxStatus × Nat)) :=
  if totalNew rows > 0 && !withinCap (totalNew rows) then
    .ok (rows.map fun row => (if row.2.isEmpty then row.1 else { row.1 with newAttachments := none }, 0))
  else if totalNew rows > 0 then reopen.map fun sessions => rows.map (countRow sessions)
  else .ok (rows.map fun row => (row.1, 0))

/-- What a scan depends on: the account, the ledger, the second connection and the status object. -/
structure ScanHost where
  connect : Except Text MailServer
  loadOrSeed : List MailboxState → Except Text (Ledger × Bool)
  reopen : Except Text (Text → Except Text Session)
  downloadState : Except Text (Option Text)
  /-- Writing the status file and uploading it. -/
  publish : Text → Except Text Unit

structure IdentityScan where
  rows : List MailboxStatus
  seeded : Bool
  unparsedBodystructures : Nat
deriving DecidableEq, Repr

def scanIdentity (host : ScanHost) (now : UtcTime) : Except Text IdentityScan := do
  let server ← host.connect
  let states ← listMailboxStates server
  let loaded ← host.loadOrSeed states
  let counted ← countRows host.reopen (diffRows loaded.1 states (utcTimestamp now))
  let previous ← host.downloadState
  let rows := counted.map Prod.fst
  let rows := carryForward ((previous.map parse).getD []) (rows ++ [total rows (utcTimestamp now)])
  host.publish (serialize rows)
  return ⟨rows, loaded.2, (counted.map Prod.snd).sum⟩

/-! ## What the counts of a row say -/

/-- What the server has is what was ingested, less what it has no more, and what is new. -/
def MailboxStatus.Balanced (row : MailboxStatus) : Prop :=
  row.serverMessages + row.removedOnServer = row.ingested + row.newMessages

instance (row : MailboxStatus) : Decidable row.Balanced := inferInstanceAs (Decidable (_ = _))

theorem length_le_of_nodup {uids : List UInt32} (h : uids.Nodup) : uids.length ≤ 4294967296 := by
  have hNodup : (uids.map UInt32.toNat).Nodup := h.map fun _ _ hSame => UInt32.toNat_inj.mp hSame
  have hSub : uids.map UInt32.toNat ⊆ List.range 4294967296 := by
    intro n hMem
    obtain ⟨uid, -, rfl⟩ := List.mem_map.mp hMem
    exact List.mem_range.mpr uid.toNat_lt
  have hLength := (hNodup.subperm hSub).length_le
  rwa [List.length_map, List.length_range] at hLength

theorem length_missingUids (server ingested : List UInt32) :
    (missingUids server ingested).length = (server.filter fun uid => !ingested.contains uid).length := by
  rw [missingUids, List.length_mergeSort]

/-- Two sets have as many members in common, whichever of them they are looked up in. -/
theorem length_add_left {server ingested : List UInt32} (hServer : server.Nodup) (hIngested : ingested.Nodup) :
    server.length + (ingested.filter fun uid => !server.contains uid).length =
      ingested.length + (missingUids server ingested).length := by
  have hCommon : (server.filter fun uid => ingested.contains uid).length = (ingested.filter fun uid => server.contains uid).length := by
    refine List.Perm.length_eq ((List.perm_ext_iff_of_nodup (hServer.filter _) (hIngested.filter _)).mpr fun uid => ?_)
    simp only [List.mem_filter, List.contains_iff_mem]
    exact and_comm
  have hServerSplit := List.length_eq_length_filter_add (l := server) (fun uid => ingested.contains uid)
  have hIngestedSplit := List.length_eq_length_filter_add (l := ingested) (fun uid => server.contains uid)
  rw [length_missingUids]
  omega

theorem nodup_ingestedUids (ledger : Ledger) (mailbox : Text) (uidvalidity : UInt32) :
    (ledger.ingestedUids mailbox uidvalidity).Nodup := by
  rw [Ledger.ingestedUids]
  refine List.Nodup.map_on ?_ (Std.ExtTreeMap.nodup_keys.filter _)
  rintro ⟨first, firstValidity, uid⟩ hFirst ⟨second, secondValidity, other⟩ hSecond hUid
  simp only [List.mem_filter, Bool.and_eq_true, beq_iff_eq] at hFirst hSecond hUid
  obtain ⟨-, rfl, rfl⟩ := hFirst
  obtain ⟨-, rfl, rfl⟩ := hSecond
  rw [hUid]

theorem balanced_diff {mailbox scannedAt : Text} {uidvalidity : UInt32} {server ingested : List UInt32} (hServer : server.Nodup)
    (hIngested : ingested.Nodup) : (diff mailbox uidvalidity server ingested scannedAt).1.Balanced := by
  rw [MailboxStatus.Balanced, diff]
  dsimp only
  rw [← UInt64.ofNat_add, ← UInt64.ofNat_add, length_add_left hServer hIngested]

theorem sum_map_add (rows : List MailboxStatus) (first second : MailboxStatus → UInt64) :
    (rows.map first).sum + (rows.map second).sum = (rows.map fun row => first row + second row).sum := by
  induction rows with
  | nil => rfl
  | cons row rows ih =>
    rw [List.map_cons, List.map_cons, List.map_cons, List.sum_cons, List.sum_cons, List.sum_cons, ← ih]
    ac_rfl

theorem balanced_total {rows : List MailboxStatus} (h : ∀ row ∈ rows, row.Balanced) (scannedAt : Text) :
    (total rows scannedAt).Balanced := by
  rw [MailboxStatus.Balanced, total]
  dsimp only
  rw [sum_map_add, sum_map_add]
  exact congrArg List.sum (List.map_congr_left h)

/-- What a row says apart from the attachments and its last time in sync. -/
structure Figures where
  mailbox : Text
  uidvalidity : Option UInt32
  serverMessages : UInt64
  ingested : UInt64
  newMessages : UInt64
  removedOnServer : UInt64

def MailboxStatus.figures (row : MailboxStatus) : Figures :=
  ⟨row.mailbox, row.uidvalidity, row.serverMessages, row.ingested, row.newMessages, row.removedOnServer⟩

theorem MailboxStatus.Balanced.of_figures {row other : MailboxStatus} (h : row.Balanced) (hSame : row.figures = other.figures) :
    other.Balanced := by
  obtain ⟨⟩ := row
  obtain ⟨⟩ := other
  cases hSame
  exact h

theorem figures_countRow (sessions : Text → Except Text Session) (row : MailboxStatus × List UInt32) :
    (countRow sessions row).1.figures = row.1.figures := by
  rw [countRow]
  split
  · rfl
  · split <;> rfl

/-- Counting the attachments leaves the rest of the rows as it was. -/
theorem figures_countRows {reopen : Except Text (Text → Except Text Session)} {rows : List (MailboxStatus × List UInt32)}
    {counted : List (MailboxStatus × Nat)} (h : countRows reopen rows = .ok counted) :
    counted.map (fun row => row.1.figures) = rows.map fun row => row.1.figures := by
  rw [countRows] at h
  split at h
  · cases h
    rw [List.map_map]
    refine List.map_congr_left fun row _ => ?_
    dsimp only [Function.comp_apply]
    split <;> rfl
  · split at h
    · cases hReopen : reopen with
      | error err =>
        rw [hReopen] at h
        cases h
      | ok sessions =>
        rw [hReopen] at h
        cases h
        rw [List.map_map]
        exact List.map_congr_left fun row _ => figures_countRow sessions row
    · cases h
      rw [List.map_map]
      rfl

theorem nodup_listMailboxStates {server : MailServer} {states : List MailboxState} (h : listMailboxStates server = .ok states) :
    ∀ state ∈ states, state.serverUids.Nodup := by
  rw [listMailboxStates] at h
  split at h
  · cases h
  · intro state hState
    obtain ⟨listed, -, hListed⟩ := Fallible.exists_of_mem_mapM h hState
    rw [listMailbox] at hListed
    split at hListed
    · cases hListed
    · split at hListed
      · cases hListed
      · rename_i uids hUids
        cases hListed
        exact uids.property

theorem figures_carryForward (previous current : List MailboxStatus) :
    (carryForward previous current).map MailboxStatus.figures = current.map MailboxStatus.figures := by
  rw [carryForward, List.map_map]
  rfl

theorem carryForward_concat (previous rows : List MailboxStatus) (row : MailboxStatus) :
    ∃ last, carryForward previous (rows ++ [row]) = carryForward previous rows ++ [last] ∧ last.figures = row.figures ∧
      last.newAttachments = row.newAttachments :=
  ⟨_, List.map_append, rfl, rfl⟩

/-! ## The rows and the plan of an import -/

/-- What the import would fetch for the mailboxes, by the ledger. -/
def importPlan (ledger : Ledger) (states : List MailboxState) : List PendingMailbox :=
  pendingMailboxes (fun state => ledger.ingestedUids state.mailbox state.uidvalidity) states

def pendingCount (plan : List PendingMailbox) : Nat := (plan.map fun pending => pending.uids.length).sum

variable {ledger : Ledger} {states : List MailboxState} {scannedAt : Text}

/-- A mailbox is in the plan if and only if its row has something new, and with the new UIDs of the row. -/
theorem plan_eq_news (ledger : Ledger) (states : List MailboxState) (scannedAt : Text) :
    (importPlan ledger states).map (fun pending => (pending.mailbox, some pending.uidvalidity, pending.uids)) =
      ((diffRows ledger states scannedAt).filter fun row => !row.2.isEmpty).map
        fun row => (row.1.mailbox, row.1.uidvalidity, row.2) := by
  rw [importPlan, pendingMailboxes, diffRows]
  induction states with
  | nil => rfl
  | cons state states ih =>
    cases hUids : (missingUids state.serverUids (ledger.ingestedUids state.mailbox state.uidvalidity)).isEmpty with
    | true =>
      simp only [List.filterMap_cons, List.map_cons, List.filter_cons, diff, hUids, Bool.not_true, Bool.false_eq_true, if_false,
        if_true] at ih ⊢
      exact ih
    | false =>
      simp only [List.filterMap_cons, List.map_cons, List.filter_cons, diff, hUids, Bool.not_false, Bool.false_eq_true, if_false,
        if_true] at ih ⊢
      rw [ih]

/-- A sum over the plan is one over the rows, since rows with nothing new add nothing. -/
theorem sum_plan_eq {amount : Text → List UInt32 → Nat} (hNothing : ∀ mailbox, amount mailbox [] = 0) (ledger : Ledger)
    (states : List MailboxState) (scannedAt : Text) :
    ((importPlan ledger states).map fun pending => amount pending.mailbox pending.uids).sum =
      ((diffRows ledger states scannedAt).map fun row => amount row.1.mailbox row.2).sum := by
  have hPlan := congrArg (fun news => (news.map fun row : Text × Option UInt32 × List UInt32 => amount row.1 row.2.2).sum)
    (plan_eq_news ledger states scannedAt)
  simp only [List.map_map] at hPlan
  refine hPlan.trans ?_
  generalize diffRows ledger states scannedAt = rows
  induction rows with
  | nil => rfl
  | cons row rows ih =>
    rw [List.filter_cons, List.map_cons, List.sum_cons]
    cases hUids : row.2 with
    | nil =>
      rw [hNothing, Nat.zero_add]
      exact ih
    | cons uid uids =>
      rw [← hUids, if_pos (by rw [hUids]; rfl), List.map_cons, List.sum_cons, ih]
      rfl

theorem totalNew_eq (ledger : Ledger) (states : List MailboxState) (scannedAt : Text) :
    totalNew (diffRows ledger states scannedAt) = pendingCount (importPlan ledger states) :=
  (@sum_plan_eq (fun _ uids => uids.length) (fun _ => rfl) ledger states scannedAt).symm

theorem sum_ofNat {α : Type*} (items : List α) (amount : α → Nat) :
    (items.map fun item => UInt64.ofNat (amount item)).sum = .ofNat (items.map amount).sum := by
  induction items with
  | nil => rfl
  | cons item items ih => rw [List.map_cons, List.map_cons, List.sum_cons, List.sum_cons, ih, UInt64.ofNat_add]

/-- The new UIDs of a mailbox are too few to wrap, so their number is zero only if there are none. -/
theorem newMessages_ne_zero_iff (hStates : ∀ state ∈ states, state.serverUids.Nodup) {row : MailboxStatus × List UInt32}
    (hRow : row ∈ diffRows ledger states scannedAt) : row.1.newMessages ≠ 0 ↔ row.2.isEmpty = false := by
  obtain ⟨state, hState, rfl⟩ := List.mem_map.mp hRow
  have hFew := length_le_of_nodup ((hStates state hState).filter fun uid =>
    !(ledger.ingestedUids state.mailbox state.uidvalidity).contains uid)
  rw [← length_missingUids] at hFew
  dsimp only [diff]
  generalize missingUids state.serverUids (ledger.ingestedUids state.mailbox state.uidvalidity) = uids at hFew ⊢
  cases uids with
  | nil => simp
  | cons uid uids =>
    refine ⟨fun _ => rfl, fun _ hZero => ?_⟩
    have hNat := congrArg UInt64.toNat hZero
    rw [UInt64.toNat_ofNat', Nat.mod_eq_of_lt (by omega)] at hNat
    cases hNat

/-- The rows with something new, against the plan. -/
theorem news_eq_plan (ledger : Ledger) (hStates : ∀ state ∈ states, state.serverUids.Nodup) (scannedAt : Text) :
    (((diffRows ledger states scannedAt).map fun row => row.1.figures).filter fun figures => figures.newMessages ≠ 0).map
        (fun figures => (figures.mailbox, figures.uidvalidity, figures.newMessages)) =
      (importPlan ledger states).map
        fun pending => (pending.mailbox, some pending.uidvalidity, UInt64.ofNat pending.uids.length) := by
  have hPlan := congrArg (List.map fun news : Text × Option UInt32 × List UInt32 => (news.1, news.2.1, UInt64.ofNat news.2.2.length))
    (plan_eq_news ledger states scannedAt)
  rw [List.map_map, List.map_map] at hPlan
  refine Eq.trans ?_ hPlan.symm
  rw [List.filter_map, List.map_map]
  have hFilter : (diffRows ledger states scannedAt).filter ((fun figures : Figures => decide (figures.newMessages ≠ 0)) ∘
      fun row => row.1.figures) = (diffRows ledger states scannedAt).filter fun row => !row.2.isEmpty := by
    refine List.filter_congr fun row hRow => ?_
    rw [Function.comp_apply, Bool.eq_iff_iff, decide_eq_true_iff, Bool.not_eq_true']
    exact newMessages_ne_zero_iff hStates hRow
  rw [hFilter]
  refine List.map_congr_left fun row hRow => ?_
  obtain ⟨state, -, rfl⟩ := List.mem_map.mp (List.mem_of_mem_filter hRow)
  rfl

theorem sum_newMessages (ledger : Ledger) (states : List MailboxState) (scannedAt : Text) :
    (((diffRows ledger states scannedAt).map fun row => row.1.figures).map Figures.newMessages).sum =
      .ofNat (totalNew (diffRows ledger states scannedAt)) := by
  rw [totalNew, ← sum_ofNat, List.map_map]
  refine congrArg List.sum (List.map_congr_left fun row hRow => ?_)
  obtain ⟨state, -, rfl⟩ := List.mem_map.mp hRow
  rfl

theorem foldl_attachments {rows : List MailboxStatus} {amount : MailboxStatus → UInt64}
    (h : ∀ row ∈ rows, row.newAttachments = some (amount row)) (sum : UInt64) :
    rows.foldl (fun sum row => sum.bind fun sum => row.newAttachments.map (sum + ·)) (some sum) =
      some (sum + (rows.map amount).sum) := by
  induction rows generalizing sum with
  | nil => exact congrArg some (UInt64.add_zero sum).symm
  | cons row rows ih =>
    rw [List.foldl_cons, Option.bind_some, h row List.mem_cons_self, Option.map_some,
      ih (fun other hOther => h other (List.mem_cons_of_mem row hOther)), List.map_cons, List.sum_cons, UInt64.add_assoc]

/-! ## Counting the attachments -/

/-- Every mailbox of the plan opens again, and its batches fail for its poison UIDs alone. -/
def Honest (reopen : Except Text (Text → Except Text Session)) (plan : List PendingMailbox) (poison : Text → UInt32 → Prop)
    (attachments : Text → UInt32 → Nat) : Prop :=
  ∃ sessions, reopen = .ok sessions ∧ ∀ pending ∈ plan, ∃ session, sessions pending.mailbox = .ok session ∧
    Bodystructure.Poisons session (String.ofList pending.mailbox) (poison pending.mailbox) (attachments pending.mailbox)

section Counts

variable {poison : Text → UInt32 → Prop} [∀ mailbox, DecidablePred (poison mailbox)] {attachments : Text → UInt32 → Nat}

/-- The attachments of the UIDs of a mailbox, as far as they can be counted. -/
def attachmentsOf (poison : Text → UInt32 → Prop) [∀ mailbox, DecidablePred (poison mailbox)] (attachments : Text → UInt32 → Nat)
    (mailbox : Text) (uids : List UInt32) : Nat :=
  ((uids.filter fun uid => ¬ poison mailbox uid).map (attachments mailbox)).sum

def poisonOf (poison : Text → UInt32 → Prop) [∀ mailbox, DecidablePred (poison mailbox)] (mailbox : Text) (uids : List UInt32) : Nat :=
  uids.countP fun uid => poison mailbox uid

theorem countRow_honest {sessions : Text → Except Text Session} {row : MailboxStatus × List UInt32}
    (hRow : row ∈ diffRows ledger states scannedAt)
    (hSession : row.2.isEmpty = false → ∃ session, sessions row.1.mailbox = .ok session ∧
      Bodystructure.Poisons session (String.ofList row.1.mailbox) (poison row.1.mailbox) (attachments row.1.mailbox)) :
    (countRow sessions row).1.newAttachments = some (.ofNat (attachmentsOf poison attachments row.1.mailbox row.2)) ∧
      (countRow sessions row).2 = poisonOf poison row.1.mailbox row.2 := by
  rw [countRow]
  cases hUids : row.2.isEmpty with
  | true =>
    rw [if_pos rfl, List.isEmpty_iff.mp hUids]
    obtain ⟨state, -, rfl⟩ := List.mem_map.mp hRow
    exact ⟨rfl, rfl⟩
  | false =>
    obtain ⟨session, hOk, hPoisons⟩ := hSession hUids
    rw [if_neg Bool.false_ne_true, hOk]
    obtain ⟨count, -, hCount, -, hTold⟩ :=
      Bodystructure.countNewAttachments_spec session (String.ofList row.1.mailbox) row.2 le_rfl
    obtain ⟨hAttachments, hUnparsed⟩ := hTold (poison row.1.mailbox) (attachments row.1.mailbox) hPoisons
    dsimp only [countUids]
    rw [hCount, Option.getD_some, hAttachments, hUnparsed]
    exact ⟨rfl, rfl⟩

/-- Where the account answers honestly, the total row has the attachments of everything that is new. -/
theorem countRows_honest {reopen : Except Text (Text → Except Text Session)} {counted : List (MailboxStatus × Nat)}
    (h : countRows reopen (diffRows ledger states scannedAt) = .ok counted)
    (hCap : withinCap (pendingCount (importPlan ledger states)) = true)
    (hHonest : Honest reopen (importPlan ledger states) poison attachments) :
    (total (counted.map Prod.fst) scannedAt).newAttachments =
        some (.ofNat ((importPlan ledger states).map fun pending => attachmentsOf poison attachments pending.mailbox pending.uids).sum) ∧
      (counted.map Prod.snd).sum = ((importPlan ledger states).map fun pending => poisonOf poison pending.mailbox pending.uids).sum := by
  obtain ⟨sessions, rfl, hSessions⟩ := hHonest
  have hCounted : counted = (diffRows ledger states scannedAt).map (countRow sessions) := by
    rw [countRows, totalNew_eq, hCap, Bool.not_true, Bool.and_false, if_neg Bool.false_ne_true] at h
    split at h
    · cases h
      rfl
    · rename_i hNothing
      cases h
      refine List.map_congr_left fun row hRow => ?_
      have hLength : row.2.length ≤ totalNew (diffRows ledger states scannedAt) :=
        List.le_sum_of_mem (List.mem_map_of_mem hRow)
      rw [totalNew_eq] at hLength
      rw [countRow, if_pos (List.isEmpty_iff.mpr (List.eq_nil_of_length_eq_zero (by omega)))]
  have hRows : ∀ row ∈ diffRows ledger states scannedAt,
      (countRow sessions row).1.newAttachments = some (.ofNat (attachmentsOf poison attachments row.1.mailbox row.2)) ∧
        (countRow sessions row).2 = poisonOf poison row.1.mailbox row.2 := by
    intro row hRow
    refine countRow_honest hRow fun hSome => ?_
    have hNews : (row.1.mailbox, row.1.uidvalidity, row.2) ∈
        (importPlan ledger states).map fun pending => (pending.mailbox, some pending.uidvalidity, pending.uids) := by
      rw [plan_eq_news ledger states scannedAt]
      exact List.mem_map_of_mem (List.mem_filter.mpr ⟨hRow, by rw [hSome]; rfl⟩)
    obtain ⟨pending, hPending, hSame⟩ := List.mem_map.mp hNews
    rw [← (Prod.mk.inj hSame).1]
    exact hSessions pending hPending
  have hAttachments := @sum_plan_eq (attachmentsOf poison attachments) (fun _ => rfl) ledger states scannedAt
  have hPoison := @sum_plan_eq (poisonOf poison) (fun _ => rfl) ledger states scannedAt
  rw [hAttachments, hPoison, hCounted]
  refine ⟨?_, ?_⟩
  · have hEach : ∀ row ∈ ((diffRows ledger states scannedAt).map (countRow sessions)).map Prod.fst,
        row.newAttachments = some (row.newAttachments.getD 0) := by
      intro row hRow
      rw [List.map_map] at hRow
      obtain ⟨before, hBefore, rfl⟩ := List.mem_map.mp hRow
      rw [Function.comp_apply, (hRows before hBefore).1]
      rfl
    rw [total]
    dsimp only
    rw [foldl_attachments hEach, UInt64.zero_add, List.map_map, List.map_map, ← sum_ofNat]
    refine congrArg (fun amounts => some (List.sum amounts)) (List.map_congr_left fun row hRow => ?_)
    rw [Function.comp_apply, Function.comp_apply, (hRows row hRow).1, Option.getD_some]
  · rw [List.map_map]
    exact congrArg List.sum (List.map_congr_left fun row hRow => (hRows row hRow).2)

end Counts

theorem foldl_attachments_none (rows : List MailboxStatus) :
    rows.foldl (fun sum row => sum.bind fun sum => row.newAttachments.map (sum + ·)) none = none := by
  induction rows with
  | nil => rfl
  | cons row rows ih => exact ih

/-- Attachments that are unknown in one row are unknown in the total. -/
theorem total_unknown {rows : List MailboxStatus} {row : MailboxStatus} (hRow : row ∈ rows) (hNone : row.newAttachments = none) :
    (total rows scannedAt).newAttachments = none := by
  obtain ⟨before, after, rfl⟩ := List.append_of_mem hRow
  rw [total]
  dsimp only
  rw [List.foldl_append, List.foldl_cons, hNone]
  cases before.foldl (fun sum row => sum.bind fun sum => row.newAttachments.map (sum + ·)) (some (0 : UInt64)) with
  | none => exact foldl_attachments_none after
  | some sum => exact foldl_attachments_none after

theorem countRows_over_cap {reopen : Except Text (Text → Except Text Session)} {counted : List (MailboxStatus × Nat)}
    (h : countRows reopen (diffRows ledger states scannedAt) = .ok counted)
    (hCap : withinCap (pendingCount (importPlan ledger states)) = false) :
    (total (counted.map Prod.fst) scannedAt).newAttachments = none := by
  have hMany : pendingCount (importPlan ledger states) > 0 := by
    rw [withinCap, decide_eq_false_iff_not] at hCap
    omega
  obtain ⟨row, hRow, hSome⟩ : ∃ row ∈ diffRows ledger states scannedAt, row.2.isEmpty = false := by
    by_contra hAll
    have hZero : totalNew (diffRows ledger states scannedAt) = 0 := by
      refine List.sum_eq_zero fun length hLength => ?_
      obtain ⟨row, hRow, rfl⟩ := List.mem_map.mp hLength
      by_contra hLong
      exact hAll ⟨row, hRow, by simpa using hLong⟩
    rw [totalNew_eq] at hZero
    omega
  rw [countRows, totalNew_eq, hCap, Bool.not_false, Bool.and_true, if_pos (decide_eq_true hMany)] at h
  cases h
  rw [List.map_map]
  refine total_unknown (List.mem_map_of_mem hRow) ?_
  rw [Function.comp_apply]
  dsimp only
  rw [hSome, if_neg Bool.false_ne_true]

/-- For every account, ledger and time: each row and the total balance, the rows with something new are the mailboxes
that an import with this ledger would fetch from, with as many messages, and where the count of the attachments is not given up
and meets only messages that it can or cannot parse, it is that of the messages that the import would fetch. -/
theorem scanIdentity_agrees {host : ScanHost} {now : UtcTime} {scan : IdentityScan} (h : scanIdentity host now = .ok scan) :
    ∃ server states loaded, host.connect = .ok server ∧ listMailboxStates server = .ok states ∧ host.loadOrSeed states = .ok loaded ∧
      scan.rows.map MailboxStatus.mailbox = states.map MailboxState.mailbox ++ [totalRow] ∧ (∀ row ∈ scan.rows, row.Balanced) ∧
      (scan.rows.dropLast.filter fun row => row.newMessages ≠ 0).map (fun row => (row.mailbox, row.uidvalidity, row.newMessages)) =
        (importPlan loaded.1 states).map
          (fun pending => (pending.mailbox, some pending.uidvalidity, UInt64.ofNat pending.uids.length)) ∧
      ∃ last, scan.rows.getLast? = some last ∧ last.newMessages = .ofNat (pendingCount (importPlan loaded.1 states)) ∧
        (withinCap (pendingCount (importPlan loaded.1 states)) = false → last.newAttachments = none) ∧
        ∀ (poison : Text → UInt32 → Prop) [∀ mailbox, DecidablePred (poison mailbox)] (attachments : Text → UInt32 → Nat),
          withinCap (pendingCount (importPlan loaded.1 states)) = true → Honest host.reopen (importPlan loaded.1 states) poison attachments →
            last.newAttachments = some (.ofNat ((importPlan loaded.1 states).map fun pending =>
                attachmentsOf poison attachments pending.mailbox pending.uids).sum) ∧
              scan.unparsedBodystructures =
                ((importPlan loaded.1 states).map fun pending => poisonOf poison pending.mailbox pending.uids).sum := by
  rw [scanIdentity] at h
  obtain ⟨server, hServer, h⟩ := Fallible.bind_eq_ok h
  obtain ⟨states, hStates, h⟩ := Fallible.bind_eq_ok h
  obtain ⟨loaded, hLoaded, h⟩ := Fallible.bind_eq_ok h
  obtain ⟨counted, hCounted, h⟩ := Fallible.bind_eq_ok h
  obtain ⟨previous, -, h⟩ := Fallible.bind_eq_ok h
  obtain ⟨⟨⟩, -, h⟩ := Fallible.bind_eq_ok h
  cases h
  have hNodup := nodup_listMailboxStates hStates
  have hFigures := figures_countRows hCounted
  have hBalanced : ∀ row ∈ counted.map Prod.fst, row.Balanced := by
    intro row hRow
    obtain ⟨before, hBefore, rfl⟩ := List.mem_map.mp hRow
    have hMem : before.1.figures ∈ counted.map fun row => row.1.figures := List.mem_map_of_mem hBefore
    rw [hFigures] at hMem
    obtain ⟨compared, hCompared, hSame⟩ := List.mem_map.mp hMem
    obtain ⟨state, hState, rfl⟩ := List.mem_map.mp hCompared
    exact (balanced_diff (hNodup state hState) (nodup_ingestedUids _ _ _)).of_figures hSame
  have hRows : (carryForward ((previous.map parse).getD []) (counted.map Prod.fst)).map MailboxStatus.figures =
      (diffRows loaded.1 states (utcTimestamp now)).map fun row => row.1.figures := by
    rw [figures_carryForward, List.map_map]
    exact hFigures
  obtain ⟨last, hSplit, hTotal, hAttachments⟩ := carryForward_concat ((previous.map parse).getD []) (counted.map Prod.fst)
    (total (counted.map Prod.fst) (utcTimestamp now))
  dsimp only
  rw [hSplit, List.dropLast_concat]
  refine ⟨server, states, loaded, hServer, hStates, hLoaded, ?_, fun row hRow => ?_, ?_, last, List.getLast?_concat, ?_,
    fun hCap => ?_, fun poison _ attachments hCap hHonest => ?_⟩
  · have hNames := congrArg (List.map Figures.mailbox) hRows
    rw [List.map_map, List.map_map, diffRows, List.map_map] at hNames
    rw [List.map_append]
    exact congrArg₂ (· ++ ·) hNames (congrArg (fun figures : Figures => [figures.mailbox]) hTotal)
  · obtain hRow | hRow := List.mem_append.mp hRow
    · have hMem : row.figures ∈ (carryForward ((previous.map parse).getD []) (counted.map Prod.fst)).map MailboxStatus.figures :=
        List.mem_map_of_mem hRow
      rw [figures_carryForward] at hMem
      obtain ⟨before, hBefore, hSame⟩ := List.mem_map.mp hMem
      exact (hBalanced before hBefore).of_figures hSame
    · rw [List.mem_singleton.mp hRow]
      exact (balanced_total hBalanced (utcTimestamp now)).of_figures hTotal.symm
  · have hNews := news_eq_plan loaded.1 hNodup (utcTimestamp now)
    rw [← hRows, List.filter_map, List.map_map] at hNews
    exact hNews
  · rw [← totalNew_eq loaded.1 states (utcTimestamp now), ← sum_newMessages, ← hFigures, List.map_map]
    refine (congrArg Figures.newMessages hTotal).trans ?_
    change ((counted.map Prod.fst).map MailboxStatus.newMessages).sum = _
    rw [List.map_map]
    rfl
  · rw [hAttachments]
    exact countRows_over_cap hCounted hCap
  · rw [hAttachments]
    exact countRows_honest hCounted hCap hHonest

/-- Two messages of which the ledger has one, and a third that the server has no more. -/
def noonHost : ScanHost where
  connect := .ok
    { list := .ok [⟨"INBOX".toList, some "/".toList, false⟩, ⟨"Archive".toList, some "/".toList, true⟩]
      examine _ := .ok (some 7)
      uidSearch _ := .ok ⟨[4, 5], by decide⟩ }
  loadOrSeed _ := .ok (Ledger.insertAll ∅ [⟨"INBOX".toList, 7, 4, "t".toList⟩, ⟨"INBOX".toList, 7, 2, "t".toList⟩], false)
  reopen := .ok fun _ => .error "timeout".toList
  downloadState := .ok none
  publish _ := .ok ()

theorem scanIdentity_agrees_noon :
    ∃ scan, scanIdentity noonHost ⟨2026, 1, 1, 12, 0, 0⟩ = .ok scan ∧ scan.rows.map MailboxStatus.newMessages = [1, 1] ∧
      ∀ row ∈ scan.rows, row.Balanced := by
  have hRows : (scanIdentity noonHost ⟨2026, 1, 1, 12, 0, 0⟩).toOption.map (fun scan => scan.rows.map MailboxStatus.newMessages) =
      some [1, 1] := by
    decide +kernel
  obtain ⟨scan, hScan, hNews⟩ := Option.map_eq_some_iff.mp hRows
  cases hResult : scanIdentity noonHost ⟨2026, 1, 1, 12, 0, 0⟩ with
  | error err =>
    rw [hResult] at hScan
    cases hScan
  | ok done =>
    rw [hResult] at hScan
    cases hScan
    obtain ⟨-, -, -, -, -, -, -, hBalanced, -⟩ := scanIdentity_agrees hResult
    exact ⟨scan, rfl, hNews, hBalanced⟩

end Pigeon.EmailScan
