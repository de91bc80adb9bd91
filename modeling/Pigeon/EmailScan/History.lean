import Pigeon.EmailScan.Status

/-! # Scans of an identity, one after another

What is carried from scan to scan goes through the text of the status file and is found again by its name. The name
of a mailbox is the server's choice: it may look like a comment, or be the name of the total row.
-/
namespace Pigeon.EmailScan

open Library
open EmailImport (UtcTime utcTimestamp)

set_option autoImplicit false

/-- The name of a mailbox stays within its field. -/
structure MailboxName where
  text : Text
  noTab : '\t' ∉ text
  noNewline : '\n' ∉ text
deriving DecidableEq

structure ScannedMailbox where
  mailbox : MailboxName
  uidvalidity : UInt32
  serverMessages : UInt64
  ingested : UInt64
  newMessages : UInt64
  newAttachments : Option UInt64
  removedOnServer : UInt64
deriving DecidableEq

namespace ScannedMailbox

def name (scanned : ScannedMailbox) : Text := scanned.mailbox.text

/-- The row that `diff` gives, with its attachments counted. -/
def status (scannedAt : Text) (scanned : ScannedMailbox) : MailboxStatus where
  mailbox := scanned.name
  uidvalidity := some scanned.uidvalidity
  serverMessages := scanned.serverMessages
  ingested := scanned.ingested
  newMessages := scanned.newMessages
  newAttachments := scanned.newAttachments
  removedOnServer := scanned.removedOnServer
  lastScannedAt := scannedAt
  lastInSyncAt := none

end ScannedMailbox

/-- The server lists each mailbox once. -/
structure Scan where
  scannedAt : UtcTime
  mailboxes : List ScannedMailbox
  distinct : (mailboxes.map ScannedMailbox.name).Nodup

namespace Scan

def time (scan : Scan) : Text := utcTimestamp scan.scannedAt

def statuses (scan : Scan) : List MailboxStatus := scan.mailboxes.map (ScannedMailbox.status scan.time)

/-- The rows that the scan writes, from the file it finds. -/
def run (scan : Scan) (file : Option Text) : List MailboxStatus :=
  carryForward ((file.map parse).getD []) (scan.statuses ++ [total scan.statuses scan.time])

def Lists (scan : Scan) (name : Text) : Prop := name ∈ scan.mailboxes.map ScannedMailbox.name

def quiet (name : Text) (scan : Scan) : Bool :=
  scan.mailboxes.any fun scanned => scanned.name == name && scanned.newMessages == 0

/-- The account had nothing new, by the count of the total row. -/
def allQuiet (scan : Scan) : Bool := (scan.mailboxes.map ScannedMailbox.newMessages).sum == 0

end Scan

/-- The file that the scans leave, each of them reading the one before it. -/
def fileAfter (history : List Scan) : Option Text :=
  history.foldl (fun file scan => some (serialize (scan.run file))) none

/-- When the latest of these scans took place. -/
def latest (which : Scan → Bool) (history : List Scan) : Option Text := (history.reverse.find? which).map Scan.time

/-- After its last scan the history of every mailbox seen in all scans, and that of the account, is told as it was. -/
structure ToldRight (earlier : List Scan) (last : Scan) : Prop where
  listed : (last.run (fileAfter earlier)).map MailboxStatus.mailbox = last.mailboxes.map ScannedMailbox.name ++ [totalRow]
  mailboxes : ∀ row ∈ (last.run (fileAfter earlier)).dropLast, (∀ scan ∈ earlier, scan.Lists row.mailbox) →
    row.lastInSyncAt = latest (Scan.quiet row.mailbox) (earlier ++ [last])
  total : (last.run (fileAfter earlier)).getLast?.map MailboxStatus.lastInSyncAt =
    some (latest Scan.allQuiet (earlier ++ [last]))

/-! ## What a row takes over -/

theorem previousInSync_of_unique {rows : List MailboxStatus} {row : MailboxStatus} (hRow : row ∈ rows)
    (hUnique : ∀ other ∈ rows, other.mailbox = row.mailbox → other = row) :
    previousInSync rows row.mailbox = row.lastInSyncAt := by
  have hSome : (rows.reverse.find? fun other => other.mailbox == row.mailbox).isSome :=
    List.find?_isSome.mpr ⟨row, List.mem_reverse.mpr hRow, beq_self_eq_true row.mailbox⟩
  obtain ⟨found, hFound⟩ := Option.isSome_iff_exists.mp hSome
  have hName : found.mailbox = row.mailbox := by simpa using List.find?_some hFound
  rw [previousInSync, hFound, hUnique found (List.mem_reverse.mp (List.mem_of_find?_eq_some hFound)) hName,
    Option.bind_some]

theorem previousInSync_concat_self (rows : List MailboxStatus) (row : MailboxStatus) :
    previousInSync (rows ++ [row]) row.mailbox = row.lastInSyncAt := by
  rw [previousInSync, List.reverse_concat, List.find?_cons_of_pos (by simp), Option.bind_some]

theorem previousInSync_concat_of_ne (rows : List MailboxStatus) {row : MailboxStatus} {name : Text}
    (h : row.mailbox ≠ name) : previousInSync (rows ++ [row]) name = previousInSync rows name := by
  rw [previousInSync, List.reverse_concat, List.find?_cons_of_neg (by simpa using h), previousInSync]

theorem previousInSync_filter (rows : List MailboxStatus) {name : Text} (h : name.head? ≠ some '#') :
    previousInSync (rows.filter fun row => decide ¬ row.Commented) name = previousInSync rows name := by
  rw [previousInSync, ← List.filter_reverse, List.find?_filter, previousInSync]
  congr 2
  funext row
  rw [Bool.eq_iff_iff, decide_eq_true_eq, and_iff_right_iff_imp]
  intro hName
  rw [decide_eq_true_eq, MailboxStatus.Commented, eq_of_beq hName]
  exact h

theorem previousInSync_commented (rows : List MailboxStatus) {name : Text} (h : name.head? = some '#') :
    previousInSync (rows.filter fun row => decide ¬ row.Commented) name = none := by
  have hNone : (rows.filter fun row => decide ¬ row.Commented).reverse.find? (fun row => row.mailbox == name) = none := by
    rw [List.find?_eq_none]
    intro row hRow hName
    have hKept := List.of_mem_filter (List.mem_reverse.mp hRow)
    rw [decide_eq_true_eq, MailboxStatus.Commented, eq_of_beq hName] at hKept
    exact hKept h
  rw [previousInSync, hNone, Option.bind_none]

theorem latest_concat (which : Scan → Bool) (history : List Scan) (scan : Scan) :
    latest which (history ++ [scan]) = if which scan then some scan.time else latest which history := by
  rw [latest, List.reverse_concat, List.find?_cons, latest]
  cases which scan <;> rfl

theorem latest_eq_none {which : Scan → Bool} {history : List Scan} :
    latest which history = none ↔ ∀ scan ∈ history, which scan = false := by
  simp [latest]

/-! ## What one scan writes -/

namespace ScannedMailbox

def row (previous : List MailboxStatus) (scannedAt : Text) (scanned : ScannedMailbox) : MailboxStatus :=
  { scanned.status scannedAt with
    lastInSyncAt := if scanned.newMessages = 0 then some scannedAt else previousInSync previous scanned.name }

@[simp] theorem row_mailbox (previous : List MailboxStatus) (scannedAt : Text) (scanned : ScannedMailbox) :
    (scanned.row previous scannedAt).mailbox = scanned.name := rfl

end ScannedMailbox

def found (earlier : List Scan) : List MailboxStatus := ((fileAfter earlier).map parse).getD []

namespace Scan

def totalWritten (scan : Scan) (previous : List MailboxStatus) : MailboxStatus :=
  { total scan.statuses scan.time with
    lastInSyncAt := if scan.allQuiet then some scan.time else previousInSync previous totalRow }

theorem run_eq (scan : Scan) (earlier : List Scan) :
    scan.run (fileAfter earlier) =
      scan.mailboxes.map (ScannedMailbox.row (found earlier) scan.time) ++ [scan.totalWritten (found earlier)] := by
  have hSum : (total scan.statuses scan.time).newMessages = (scan.mailboxes.map ScannedMailbox.newMessages).sum := by
    change (scan.statuses.map MailboxStatus.newMessages).sum = _
    rw [statuses, List.map_map]
    rfl
  rw [run, carryForward, List.map_append]
  refine congrArg₂ (· ++ ·) ?_ (congrArg (fun row => [row]) ?_)
  · rw [statuses, List.map_map]
    rfl
  · simp only [totalWritten, allQuiet, hSum, beq_iff_eq]
    rfl

theorem quiet_eq {scan : Scan} {scanned : ScannedMailbox} (h : scanned ∈ scan.mailboxes) :
    scan.quiet scanned.name = true ↔ scanned.newMessages = 0 := by
  rw [quiet, List.any_eq_true]
  constructor
  · rintro ⟨other, hOther, hQuiet⟩
    rw [Bool.and_eq_true, beq_iff_eq, beq_iff_eq] at hQuiet
    rw [← List.inj_on_of_nodup_map scan.distinct hOther h hQuiet.1]
    exact hQuiet.2
  · intro hNone
    exact ⟨scanned, h, by rw [hNone]; simp⟩

theorem row_lastInSyncAt {scan : Scan} {scanned : ScannedMailbox} (h : scanned ∈ scan.mailboxes)
    (previous : List MailboxStatus) :
    (scanned.row previous scan.time).lastInSyncAt =
      if scan.quiet scanned.name then some scan.time else previousInSync previous scanned.name := by
  rw [ScannedMailbox.row]
  exact ite_congr (propext (quiet_eq h).symm) (fun _ => rfl) (fun _ => rfl)

theorem previousInSync_rows {scan : Scan} {scanned : ScannedMailbox} (h : scanned ∈ scan.mailboxes)
    (previous : List MailboxStatus) :
    previousInSync (scan.mailboxes.map (ScannedMailbox.row previous scan.time)) scanned.name =
      if scan.quiet scanned.name then some scan.time else previousInSync previous scanned.name := by
  rw [← row_lastInSyncAt h, ← ScannedMailbox.row_mailbox previous scan.time scanned]
  apply previousInSync_of_unique (List.mem_map_of_mem h)
  intro other hOther hName
  obtain ⟨twin, hTwin, rfl⟩ := List.mem_map.mp hOther
  rw [List.inj_on_of_nodup_map scan.distinct hTwin h hName]

theorem plain_run {earlier : List Scan} (h : ∀ row ∈ found earlier, row.Plain) (scan : Scan) :
    ∀ row ∈ scan.run (fileAfter earlier), row.Plain := by
  have hCarried (name : Text) :
      previousInSync (found earlier) name = none ∨ ∃ now, previousInSync (found earlier) name = some (utcTimestamp now) := by
    rw [previousInSync]
    cases hFind : (found earlier).reverse.find? fun row => row.mailbox == name with
    | none => exact .inl rfl
    | some row => exact (h row (List.mem_reverse.mp (List.mem_of_find?_eq_some hFind))).inSync
  intro row hRow
  rw [run_eq, List.mem_append, List.mem_singleton] at hRow
  obtain hRow | rfl := hRow
  · obtain ⟨scanned, hMem, rfl⟩ := List.mem_map.mp hRow
    refine ⟨⟨scanned.mailbox.noTab, scanned.mailbox.noNewline⟩, ⟨scan.scannedAt, rfl⟩, ?_⟩
    rw [row_lastInSyncAt hMem]
    split
    · exact .inr ⟨scan.scannedAt, rfl⟩
    · exact hCarried scanned.name
  · refine ⟨(by decide : '\t' ∉ totalRow ∧ '\n' ∉ totalRow), ⟨scan.scannedAt, rfl⟩, ?_⟩
    rw [totalWritten]
    dsimp only
    split
    · exact .inr ⟨scan.scannedAt, rfl⟩
    · exact hCarried totalRow

end Scan

/-! ## What the scans after it find -/

theorem fileAfter_concat (earlier : List Scan) (scan : Scan) :
    fileAfter (earlier ++ [scan]) = some (serialize (scan.run (fileAfter earlier))) := by
  rw [fileAfter, List.foldl_concat, ← fileAfter]

theorem plain_found (earlier : List Scan) : ∀ row ∈ found earlier, row.Plain := by
  induction earlier using List.reverseRecOn with
  | nil => exact fun row hRow => absurd hRow List.not_mem_nil
  | append_singleton earlier scan ih =>
    rw [found, fileAfter_concat, Option.map_some, Option.getD_some, parse_serialize (Scan.plain_run ih scan)]
    exact fun row hRow => Scan.plain_run ih scan row (List.mem_of_mem_filter hRow)

theorem found_concat (earlier : List Scan) (scan : Scan) :
    found (earlier ++ [scan]) = (scan.run (fileAfter earlier)).filter fun row => decide ¬ row.Commented := by
  rw [found, fileAfter_concat, Option.map_some, Option.getD_some,
    parse_serialize (Scan.plain_run (plain_found earlier) scan)]

/-- The total row stands last, so its own value is what the name leads to. -/
theorem found_total (earlier : List Scan) : previousInSync (found earlier) totalRow = latest Scan.allQuiet earlier := by
  induction earlier using List.reverseRecOn with
  | nil => rfl
  | append_singleton earlier scan ih =>
    rw [found_concat, previousInSync_filter _ (by decide), Scan.run_eq, latest_concat, ← ih]
    exact previousInSync_concat_self _ (scan.totalWritten (found earlier))

theorem found_commented (earlier : List Scan) {name : Text} (h : name.head? = some '#') :
    previousInSync (found earlier) name = none := by
  induction earlier using List.reverseRecOn with
  | nil => rfl
  | append_singleton earlier scan => rw [found_concat, previousInSync_commented _ h]

theorem found_mailbox {earlier : List Scan} {name : Text} (hComment : name.head? ≠ some '#') (hTotal : totalRow ≠ name)
    (hListed : ∀ scan ∈ earlier, scan.Lists name) :
    previousInSync (found earlier) name = latest (Scan.quiet name) earlier := by
  induction earlier using List.reverseRecOn with
  | nil => rfl
  | append_singleton earlier scan ih =>
    obtain ⟨scanned, hMem, rfl⟩ := List.mem_map.mp (hListed scan (by simp))
    rw [found_concat, previousInSync_filter _ hComment, Scan.run_eq, previousInSync_concat_of_ne _ hTotal,
      Scan.previousInSync_rows hMem, ih fun other hOther => hListed other (List.mem_append_left _ hOther), latest_concat]

/-! ## The history that is told -/

theorem run_written {earlier : List Scan} {last : Scan} :
    (last.run (fileAfter earlier)).dropLast = last.mailboxes.map (ScannedMailbox.row (found earlier) last.time) := by
  rw [Scan.run_eq, List.dropLast_concat]

theorem run_total {earlier : List Scan} {last : Scan} :
    (last.run (fileAfter earlier)).getLast?.map MailboxStatus.lastInSyncAt =
      some (latest Scan.allQuiet (earlier ++ [last])) := by
  rw [Scan.run_eq, List.getLast?_concat, Option.map_some, latest_concat, ← found_total]
  rfl

theorem run_listed {earlier : List Scan} {last : Scan} :
    (last.run (fileAfter earlier)).map MailboxStatus.mailbox =
      last.mailboxes.map ScannedMailbox.name ++ [totalRow] := by
  rw [Scan.run_eq, List.map_append, List.map_map]
  rfl

theorem row_told_iff {earlier : List Scan} {last : Scan} {scanned : ScannedMailbox} (hMem : scanned ∈ last.mailboxes)
    (hBusy : last.quiet scanned.name = false) :
    (scanned.row (found earlier) last.time).lastInSyncAt = latest (Scan.quiet scanned.name) (earlier ++ [last]) ↔
      previousInSync (found earlier) scanned.name = latest (Scan.quiet scanned.name) earlier := by
  rw [Scan.row_lastInSyncAt hMem, latest_concat, hBusy]
  exact Iff.rfl

theorem ToldRight.carried {earlier : List Scan} {last : Scan} (h : ToldRight earlier last) (name : Text)
    (hListed : ∀ scan ∈ earlier ++ [last], scan.Lists name) (hBusy : last.quiet name = false) :
    previousInSync (found earlier) name = latest (Scan.quiet name) earlier := by
  obtain ⟨scanned, hMem, rfl⟩ := List.mem_map.mp (hListed last (by simp))
  have hWritten : scanned.row (found earlier) last.time ∈ (last.run (fileAfter earlier)).dropLast := by
    rw [run_written]
    exact List.mem_map_of_mem hMem
  have hValue := h.mailboxes _ hWritten fun scan hScan => hListed scan (List.mem_append_left _ hScan)
  exact (row_told_iff hMem hBusy).mp hValue

/-- A mailbox whose name is no text of the format is told right. One that looks like a comment is told right while it
was never quiet before, and one that has the name of the total row while the account was quiet when it was. -/
theorem toldRight_iff (earlier : List Scan) (last : Scan) :
    ToldRight earlier last ↔
      ∀ name, (∀ scan ∈ earlier ++ [last], scan.Lists name) → last.quiet name = false →
        (name.head? = some '#' → ∀ scan ∈ earlier, scan.quiet name = false) ∧
        (name = totalRow → latest (Scan.quiet name) earlier = latest Scan.allQuiet earlier) := by
  constructor
  · intro hTold name hListed hBusy
    have hCarried := hTold.carried name hListed hBusy
    constructor
    · intro hComment
      rw [found_commented earlier hComment] at hCarried
      exact latest_eq_none.mp hCarried.symm
    · intro hTotal
      rw [← hCarried, hTotal, found_total]
  · intro hNames
    refine ⟨run_listed, ?_, run_total⟩
    intro row hWritten hListed
    rw [run_written] at hWritten
    obtain ⟨scanned, hMem, rfl⟩ := List.mem_map.mp hWritten
    cases hQuiet : last.quiet scanned.name with
    | true => rw [Scan.row_lastInSyncAt hMem, ScannedMailbox.row_mailbox, latest_concat, hQuiet, if_pos rfl, if_pos rfl]
    | false =>
      have hAll : ∀ scan ∈ earlier ++ [last], scan.Lists scanned.name := by
        intro scan hScan
        obtain hScan | hScan := List.mem_append.mp hScan
        · exact hListed scan hScan
        · rw [List.mem_singleton.mp hScan]
          exact List.mem_map_of_mem hMem
      obtain ⟨hComment, hTotal⟩ := hNames scanned.name hAll hQuiet
      refine (row_told_iff hMem hQuiet).mpr ?_
      by_cases hMark : scanned.name.head? = some '#'
      · rw [found_commented earlier hMark, latest_eq_none.mpr (hComment hMark)]
      · by_cases hStar : scanned.name = totalRow
        · rw [hTotal hStar, hStar, found_total]
        · exact found_mailbox hMark (Ne.symm hStar) hListed

/-! ## Names that are texts of the format -/

def countedMailbox (mailbox : MailboxName) (newMessages : UInt64) : ScannedMailbox :=
  { mailbox, uidvalidity := 1, serverMessages := newMessages, ingested := 0, newMessages, newAttachments := some 0,
    removedOnServer := 0 }

def inbox : MailboxName := ⟨"INBOX".toList, by decide, by decide⟩

def news : MailboxName := ⟨"#news".toList, by decide, by decide⟩

def star : MailboxName := ⟨"*".toList, by decide, by decide⟩

def hourlyScan (mailbox : MailboxName) (h : mailbox.text ≠ inbox.text) (hour : Nat) (newMessages inInbox : UInt64) :
    Scan where
  scannedAt := ⟨2026, 10, 19, hour, 0, 0⟩
  mailboxes := [countedMailbox mailbox newMessages, countedMailbox inbox inInbox]
  distinct := List.nodup_cons.mpr ⟨fun hMem => h (List.mem_singleton.mp hMem), List.nodup_singleton _⟩

/-- The row of the mailbox `#news` is taken for a comment by the next scan, and the mailbox `*` is told what the
total row was told. -/
theorem news_and_star_told_wrong :
    ¬ ToldRight [hourlyScan news (by decide) 1 0 3] (hourlyScan news (by decide) 2 5 3) ∧
      ¬ ToldRight [hourlyScan star (by decide) 1 0 3] (hourlyScan star (by decide) 2 5 3) := by
  constructor
  · intro hTold
    have hCarried := hTold.carried news.text (by simp only [Scan.Lists]; decide) (by decide)
    rw [found_commented _ (by decide)] at hCarried
    exact absurd hCarried (by decide)
  · intro hTold
    have hCarried := hTold.carried totalRow (by simp only [Scan.Lists]; decide) (by decide)
    rw [found_total] at hCarried
    exact absurd hCarried (by decide)

end Pigeon.EmailScan
