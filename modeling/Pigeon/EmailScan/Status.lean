import Pigeon.Library.Rows
import Pigeon.EmailImport.Gather

/-! # The status file of an identity

One row for every mailbox and a total row named `*`, below a header line. A scan overwrites the file; from the one
before it only takes over when a mailbox was last found fully ingested.
-/
namespace Pigeon.EmailScan

open Library
open EmailImport (UtcTime utcTimestamp not_mem_utcTimestamp getLast?_utcTimestamp)

set_option autoImplicit false

structure MailboxStatus where
  mailbox : Text
  uidvalidity : Option UInt32
  serverMessages : UInt64
  ingested : UInt64
  newMessages : UInt64
  newAttachments : Option UInt64
  removedOnServer : UInt64
  lastScannedAt : Text
  lastInSyncAt : Option Text
deriving DecidableEq, Repr

/-- TOTAL_ROW -/
def totalRow : Text := ['*']

/-- HEADER -/
def header : Text :=
  ("# mailbox\tuidvalidity\tserver_messages\tingested\tnew_messages\tnew_attachments\tremoved_on_server" ++
    "\tlast_scanned_at\tlast_in_sync_at").toList

/-- The `*` row; sums wrap. -/
def total (rows : List MailboxStatus) (scannedAt : Text) : MailboxStatus where
  mailbox := totalRow
  uidvalidity := none
  serverMessages := (rows.map MailboxStatus.serverMessages).sum
  ingested := (rows.map MailboxStatus.ingested).sum
  newMessages := (rows.map MailboxStatus.newMessages).sum
  newAttachments := rows.foldl (fun sum row => sum.bind fun sum => row.newAttachments.map (sum + ·)) (some 0)
  removedOnServer := (rows.map MailboxStatus.removedOnServer).sum
  lastScannedAt := scannedAt
  lastInSyncAt := none

/-- What the map of `carry_forward` gives: of several rows with the name, the last counts. -/
def previousInSync (previous : List MailboxStatus) (mailbox : Text) : Option Text :=
  (previous.reverse.find? fun row => row.mailbox == mailbox).bind MailboxStatus.lastInSyncAt

def carryForward (previous current : List MailboxStatus) : List MailboxStatus :=
  current.map fun row => { row with
    lastInSyncAt := if row.newMessages = 0 then some row.lastScannedAt else previousInSync previous row.mailbox }

namespace MailboxStatus

def fields (row : MailboxStatus) : List Text :=
  [row.mailbox,
    (row.uidvalidity.map Text.showU32).getD "-".toList,
    Text.showU64 row.serverMessages,
    Text.showU64 row.ingested,
    Text.showU64 row.newMessages,
    (row.newAttachments.map Text.showU64).getD "unknown".toList,
    Text.showU64 row.removedOnServer,
    row.lastScannedAt,
    row.lastInSyncAt.getD "-".toList]

def formatRow (row : MailboxStatus) : Text := ['\t'].intercalate row.fields

end MailboxStatus

def serialize (rows : List MailboxStatus) : Text := header ++ '\n' :: rows.flatMap fun row => row.formatRow ++ ['\n']

def parseRow (line : Text) : Option MailboxStatus :=
  match line.splitOn '\t' with
  | [mailbox, uidvalidity, server, ingested, new, attachments, removed, scanned, inSync] =>
    (Text.parseU64 server).bind fun serverMessages =>
      (Text.parseU64 ingested).bind fun ingested =>
        (Text.parseU64 new).bind fun newMessages =>
          (Text.parseU64 removed).map fun removedOnServer =>
            { mailbox, uidvalidity := Text.parseU32 uidvalidity, serverMessages, ingested, newMessages,
              newAttachments := Text.parseU64 attachments, removedOnServer, lastScannedAt := scanned,
              lastInSyncAt := if inSync ≠ "-".toList then some inSync else none }
  | _ => none

def parse (contents : Text) : List MailboxStatus :=
  ((Text.lines contents).filter fun line => decide (Text.trim line ≠ [] ∧ line.head? ≠ some '#')).filterMap parseRow

/-! ## Rows are read back -/

theorem utcTimestamp_ne_dash (now : UtcTime) : utcTimestamp now ≠ "-".toList := by
  intro hDash
  have hLast := getLast?_utcTimestamp now
  rw [hDash] at hLast
  exact absurd hLast (by decide)

namespace MailboxStatus

/-- The texts of the row stay within their fields, and no timestamp is the mark for a missing one. -/
structure Plain (row : MailboxStatus) : Prop where
  mailbox : '\t' ∉ row.mailbox ∧ '\n' ∉ row.mailbox
  scanned : ∃ now, row.lastScannedAt = utcTimestamp now
  inSync : row.lastInSyncAt = none ∨ ∃ now, row.lastInSyncAt = some (utcTimestamp now)

def Commented (row : MailboxStatus) : Prop := row.mailbox.head? = some '#'

instance (row : MailboxStatus) : Decidable row.Commented := by unfold Commented; infer_instance

theorem not_mem_fields {row : MailboxStatus} (h : row.Plain) {c : Char} (hMailbox : c ∉ row.mailbox)
    (hDigit : c.isDigit = false) (hMark : c ∉ "-T:Zunknow".toList) : ∀ field ∈ row.fields, c ∉ field := by
  obtain ⟨scanned, hScanned⟩ := h.scanned
  have hTime (now : UtcTime) : c ∉ utcTimestamp now :=
    not_mem_utcTimestamp now hDigit fun hMem => hMark (List.mem_append_left "unknow".toList hMem)
  have hDash : c ∉ "-".toList := fun hMem => hMark (List.mem_append_left "T:Zunknow".toList hMem)
  have hUnknown : c ∉ "unknown".toList := by
    intro hMem
    refine hMark (List.mem_append_right "-T:Z".toList ?_)
    revert hMem
    simp
    tauto
  have hCount (n : UInt64) : c ∉ Text.showU64 n := Text.not_mem_showU64 hDigit n
  have hValidity : c ∉ (row.uidvalidity.map Text.showU32).getD "-".toList := by
    cases row.uidvalidity with
    | none => exact hDash
    | some n => exact Text.not_mem_showU32 hDigit n
  have hAttachments : c ∉ (row.newAttachments.map Text.showU64).getD "unknown".toList := by
    cases row.newAttachments with
    | none => exact hUnknown
    | some n => exact hCount n
  have hInSync : c ∉ row.lastInSyncAt.getD "-".toList := by
    obtain hNone | ⟨now, hSome⟩ := h.inSync
    · rw [hNone]
      exact hDash
    · rw [hSome]
      exact hTime now
  simp only [fields, List.forall_mem_cons]
  exact ⟨hMailbox, hValidity, hCount _, hCount _, hCount _, hAttachments, hCount _, hScanned ▸ hTime scanned, hInSync,
    List.forall_mem_nil _⟩

theorem parseRow_formatRow {row : MailboxStatus} (h : row.Plain) : parseRow row.formatRow = some row := by
  have hFields : row.formatRow.splitOn '\t' = row.fields :=
    List.splitOn_intercalate '\t' (not_mem_fields h h.mailbox.1 (by decide) (by decide)) (List.cons_ne_nil _ _)
  have hValidity : Text.parseU32 ((row.uidvalidity.map Text.showU32).getD "-".toList) = row.uidvalidity := by
    cases row.uidvalidity with
    | none => decide
    | some n => exact Text.parseU32_showU32 n
  have hAttachments : Text.parseU64 ((row.newAttachments.map Text.showU64).getD "unknown".toList) = row.newAttachments := by
    cases row.newAttachments with
    | none => decide
    | some n => exact Text.parseU64_showU64 n
  have hInSync : (if row.lastInSyncAt.getD "-".toList ≠ "-".toList then some (row.lastInSyncAt.getD "-".toList)
      else none) = row.lastInSyncAt := by
    obtain hNone | ⟨now, hSome⟩ := h.inSync
    · rw [hNone]
      rfl
    · rw [hSome, Option.getD_some, if_pos (utcTimestamp_ne_dash now)]
  rw [parseRow, hFields, fields]
  dsimp only
  simp only [Text.parseU64_showU64, Option.bind_some, Option.map_some, hValidity, hAttachments, hInSync]

theorem newline_not_mem_formatRow {row : MailboxStatus} (h : row.Plain) : '\n' ∉ row.formatRow := by
  rw [formatRow, Text.not_mem_intercalate_iff (by decide)]
  exact not_mem_fields h h.mailbox.2 (by decide) (by decide)

theorem formatRow_eq (row : MailboxStatus) :
    row.formatRow = row.mailbox ++ '\t' :: ['\t'].intercalate row.fields.tail := by
  rw [formatRow, fields, List.tail_cons, List.intercalate_cons_cons, List.append_assoc, List.singleton_append]

theorem head?_formatRow (row : MailboxStatus) : row.formatRow.head? = some '#' ↔ row.Commented := by
  rw [formatRow_eq, Commented]
  cases row.mailbox with
  | nil => simp
  | cons c mailbox => simp

theorem trim_formatRow (row : MailboxStatus) : Text.trim row.formatRow ≠ [] := by
  obtain ⟨c, rest, hDigits⟩ := List.exists_cons_of_ne_nil
    (show Text.showU64 row.serverMessages ≠ [] from Nat.toDigits_ne_nil)
  have hMem : c ∈ Text.showU64 row.serverMessages := hDigits ▸ List.mem_cons_self
  have hDigit : c.isDigit = true := Nat.isDigit_of_mem_toDigits (by decide) (by decide) hMem
  have hField : Text.showU64 row.serverMessages ∈ row.fields := by simp [fields]
  exact Text.trim_ne_nil_of_mem (Text.mem_intercalate_of_mem hField hMem) (Text.isWhitespace_of_isDigit hDigit)

theorem getLast?_formatRow {row : MailboxStatus} (h : row.Plain) : row.formatRow.getLast? ≠ some '\r' := by
  have hInSync : '\r' ∉ row.lastInSyncAt.getD "-".toList ∧ row.lastInSyncAt.getD "-".toList ≠ [] := by
    obtain hNone | ⟨now, hSome⟩ := h.inSync
    · rw [hNone]
      decide
    · rw [hSome, Option.getD_some]
      exact ⟨not_mem_utcTimestamp now (by decide) (by decide), by simp [utcTimestamp]⟩
  have hShape : row.formatRow = ['\t'].intercalate row.fields.dropLast ++ '\t' :: row.lastInSyncAt.getD "-".toList := by
    have hParts : row.fields = row.fields.dropLast ++ [row.lastInSyncAt.getD "-".toList] := rfl
    rw [formatRow, hParts, Text.intercalate_append _ (by simp [fields]) (List.cons_ne_nil _ _),
      List.intercalate_singleton, List.dropLast_concat]
  intro hLast
  rw [hShape, List.getLast?_append, List.getLast?_cons_of_ne_nil hInSync.2,
    Option.or_of_isSome (List.getLast?_isSome.mpr hInSync.2)] at hLast
  exact hInSync.1 (List.mem_of_getLast? hLast)

end MailboxStatus

theorem header_ends : header.head? = some '#' ∧ header.getLast? = some 't' ∧ header.contains '\n' = false := by
  decide +kernel

theorem newline_not_mem_header : '\n' ∉ header := by
  rw [← List.contains_iff_mem, header_ends.2.2]
  exact Bool.false_ne_true

theorem getLast?_header : header.getLast? ≠ some '\r' := by
  rw [header_ends.2.1]
  decide

/-- Plain rows are read back, but for the ones that look like a comment. -/
theorem parse_serialize {rows : List MailboxStatus} (h : ∀ row ∈ rows, row.Plain) :
    parse (serialize rows) = rows.filter fun row => decide ¬ row.Commented := by
  have hFile : serialize rows = Text.unlines (header :: rows.map MailboxStatus.formatRow) := by
    rw [serialize, Text.unlines_cons, Text.unlines, List.flatMap_map]
  have hLines : Text.lines (serialize rows) = header :: rows.map MailboxStatus.formatRow := by
    rw [hFile, Text.lines_unlines_of_not_mem]
    · rw [List.map_cons, List.map_map]
      refine congrArg₂ List.cons (Text.stripCr_of_getLast_ne header getLast?_header)
        (List.map_congr_left fun row hRow => ?_)
      exact Text.stripCr_of_getLast_ne _ (MailboxStatus.getLast?_formatRow (h row hRow))
    · intro line hLine
      obtain hHeader | hRow := List.mem_cons.mp hLine
      · rw [hHeader]
        exact newline_not_mem_header
      · obtain ⟨row, hMem, rfl⟩ := List.mem_map.mp hRow
        exact MailboxStatus.newline_not_mem_formatRow (h row hMem)
  have hHeader : ¬ (Text.trim header ≠ [] ∧ header.head? ≠ some '#') := fun hRow => hRow.2 header_ends.1
  rw [parse, hLines, List.filter_cons_of_neg (by rwa [decide_eq_true_eq]), List.filter_map, List.filterMap_map]
  have hKept : (fun line => decide (Text.trim line ≠ [] ∧ line.head? ≠ some '#')) ∘ MailboxStatus.formatRow =
      fun row => decide ¬ row.Commented := by
    funext row
    simp only [Function.comp_apply, ne_eq, MailboxStatus.trim_formatRow, not_false_eq_true, true_and,
      MailboxStatus.head?_formatRow]
  rw [hKept]
  have hRead : ∀ row ∈ rows.filter (fun row => decide ¬ row.Commented),
      (parseRow ∘ MailboxStatus.formatRow) row = some row :=
    fun row hRow => MailboxStatus.parseRow_formatRow (h row (List.mem_of_mem_filter hRow))
  rw [List.filterMap_congr hRead, List.filterMap_some]

end Pigeon.EmailScan
