import Pigeon.Library.Torn
import Pigeon.EmailImport.Legacy

/-! # Reading a checkpoint or a ledger whose last write was cut off

Both files grow by whole rows, so a crash leaves whole rows and the beginning of one more. A
ledger row ends in a field that is not part of its key, and a cut row of it is dropped or has its
own key. A checkpoint row ends in the UID, and what stands in front of the cut can be read as
another number.
-/
namespace Pigeon.EmailImport

open Library

set_option autoImplicit false

namespace Checkpoint

def written (entries : List CheckpointEntry) : Text :=
  entries.foldl (fun contents entry => Text.appendLine contents (formatRow entry) .ok) []

/-- What is loaded from the first bytes of a file, where they are text. -/
def loadCutOff (bytes : Nat) (contents : Text) : Option (List CheckpointEntry) :=
  (Text.cutOff bytes contents).map parse

/-- A row cut off inside a number after the mailbox, and the digits that are left of it. -/
def CutNumber (entry : CheckpointEntry) (fragment digits : Text) : Prop :=
  match entry.uidvalidity with
  | none => digits <+: Text.showU32 entry.uid ∧ fragment = entry.mailbox ++ '\t' :: digits
  | some uidvalidity =>
    (digits <+: Text.showU32 uidvalidity ∧ fragment = entry.mailbox ++ '\t' :: digits) ∨
      (digits <+: Text.showU32 entry.uid ∧
        fragment = entry.mailbox ++ '\t' :: (Text.showU32 uidvalidity ++ '\t' :: digits))

/-- Where the cut leaves a number, it is a UID of this mailbox that was appended. -/
def CutHarmless (entries : List CheckpointEntry) (bytes : Nat) : Prop :=
  ∀ whole entry fragment digits uid, whole ++ [entry] <+: entries → CutNumber entry fragment digits →
    Text.cutOff bytes (written entries) = some (written whole ++ fragment) →
      Text.parseU32 digits = some uid → ∃ appended ∈ entries, appended.mailbox = entry.mailbox ∧ appended.uid = uid

/-! ## Rows -/

theorem written_eq (entries : List CheckpointEntry) : written entries = Text.unlines (entries.map formatRow) := by
  induction entries using List.reverseRecOn with
  | nil => rfl
  | append_singleton entries entry ih =>
    have hStep : written (entries ++ [entry]) = written entries ++ (formatRow entry ++ ['\n']) := by
      rw [written, List.foldl_append]
      rfl
    rw [hStep, ih, List.map_append, Text.unlines_append]
    simp [Text.unlines]

theorem CutNumber.begins {entry : CheckpointEntry} {fragment digits : Text} (h : CutNumber entry fragment digits) :
    fragment <+: formatRow entry := by
  obtain ⟨mailbox, _ | uidvalidity, uid⟩ := entry
  · obtain ⟨hDigits, rfl⟩ := h
    rw [formatRow]
    exact (List.prefix_append_right_inj mailbox).mpr ((List.prefix_cons_inj '\t').mpr hDigits)
  · rw [formatRow]
    obtain ⟨hDigits, rfl⟩ | ⟨hDigits, rfl⟩ := h
    · exact (List.prefix_append_right_inj mailbox).mpr
        ((List.prefix_cons_inj '\t').mpr (hDigits.trans (List.prefix_append _ _)))
    · exact (List.prefix_append_right_inj mailbox).mpr ((List.prefix_cons_inj '\t').mpr
        ((List.prefix_append_right_inj (Text.showU32 uidvalidity)).mpr ((List.prefix_cons_inj '\t').mpr hDigits)))

theorem parseLine_of_cutNumber {entry : CheckpointEntry} (hName : '\t' ∉ entry.mailbox) {fragment digits : Text}
    (hCut : CutNumber entry fragment digits) {uid : UInt32} (hUid : Text.parseU32 digits = some uid) :
    ∃ uidvalidity, parseLine fragment = some ⟨entry.mailbox, uidvalidity, uid⟩ := by
  have hDigits {n : UInt32} (h : digits <+: Text.showU32 n) : ∀ c ∈ digits, c.isDigit :=
    fun _ => Text.isDigit_of_prefix_showU32 h
  obtain ⟨mailbox, _ | uidvalidity, last⟩ := entry
  · obtain ⟨hShown, rfl⟩ := hCut
    exact ⟨none, by rw [parseLine_two hName (hDigits hShown), hUid, Option.map_some]⟩
  · obtain ⟨hShown, rfl⟩ | ⟨hShown, rfl⟩ := hCut
    · exact ⟨none, by rw [parseLine_two hName (hDigits hShown), hUid, Option.map_some]⟩
    · exact ⟨some uidvalidity, by rw [parseLine_three hName (hDigits hShown), hUid, Option.map_some]⟩

theorem cutNumber_of_parseLine {entry : CheckpointEntry} (hName : '\t' ∉ entry.mailbox) {fragment : Text}
    (hFragment : fragment <+: formatRow entry) {loaded : CheckpointEntry} (hRead : parseLine fragment = some loaded) :
    loaded.mailbox = entry.mailbox ∧
      ∃ digits, CutNumber entry fragment digits ∧ Text.parseU32 digits = some loaded.uid := by
  have hDigits {n : UInt32} {digits : Text} (h : digits <+: Text.showU32 n) : ∀ c ∈ digits, c.isDigit :=
    fun _ => Text.isDigit_of_prefix_showU32 h
  have hBehind (h : '\t' ∉ fragment) : False := by
    rw [parseLine_of_not_mem h] at hRead
    cases hRead
  obtain ⟨mailbox, _ | uidvalidity, last⟩ := entry
  · rw [formatRow] at hFragment
    obtain hInName | ⟨digits, rfl, hShown⟩ := Text.prefix_append_cons hFragment
    · exact (hBehind fun hMem => hName (hInName.subset hMem)).elim
    · rw [parseLine_two hName (hDigits hShown)] at hRead
      obtain ⟨uid, hUid, rfl⟩ := Option.map_eq_some_iff.mp hRead
      exact ⟨rfl, digits, ⟨hShown, rfl⟩, hUid⟩
  · rw [formatRow] at hFragment
    obtain hInName | ⟨tail, rfl, hTail⟩ := Text.prefix_append_cons hFragment
    · exact (hBehind fun hMem => hName (hInName.subset hMem)).elim
    · obtain hShown | ⟨digits, rfl, hShown⟩ := Text.prefix_append_cons hTail
      · rw [parseLine_two hName (hDigits hShown)] at hRead
        obtain ⟨uid, hUid, rfl⟩ := Option.map_eq_some_iff.mp hRead
        exact ⟨rfl, tail, .inl ⟨hShown, rfl⟩, hUid⟩
      · rw [parseLine_three hName (hDigits hShown)] at hRead
        obtain ⟨uid, hUid, rfl⟩ := Option.map_eq_some_iff.mp hRead
        exact ⟨rfl, digits, .inr ⟨hShown, rfl⟩, hUid⟩

/-! ## Loading -/

variable {entries whole : List CheckpointEntry} {fragment : Text}

theorem parse_torn (hNames : ∀ entry ∈ whole, '\t' ∉ entry.mailbox ∧ '\n' ∉ entry.mailbox) (hFragment : '\n' ∉ fragment) :
    parse (written whole ++ fragment) = whole ++ (parseLine fragment).toList := by
  have hRows : ∀ row ∈ whole.map formatRow, '\n' ∉ row := by
    intro row hRow
    obtain ⟨entry, hEntry, rfl⟩ := List.mem_map.mp hRow
    exact not_mem_formatRow (hNames entry hEntry).2
  have hWhole : ((whole.map formatRow).map Text.stripCr).filterMap parseLine = whole := by
    rw [List.map_map, List.filterMap_map]
    refine (List.filterMap_congr fun entry hEntry => ?_).trans List.filterMap_some
    rw [Function.comp_apply, Function.comp_apply, Text.stripCr_of_getLast_ne _ (getLast?_formatRow entry)]
    exact parseLine_formatRow (hNames entry hEntry).1
  rw [parse, written_eq, Text.lines_torn hRows hFragment, List.filterMap_append, hWhole]
  split
  · rename_i hNone
    rw [hNone, parseLine_of_not_mem List.not_mem_nil]
    rfl
  · rw [List.filterMap_cons]
    cases parseLine fragment <;> rfl

theorem parse_rows (hNames : ∀ entry ∈ whole, '\t' ∉ entry.mailbox ∧ '\n' ∉ entry.mailbox) :
    parse (whole.flatMap fun entry => formatRow entry ++ ['\n']) = whole := by
  have hRows := @parse_torn whole [] hNames List.not_mem_nil
  rwa [parseLine_of_not_mem List.not_mem_nil, Option.toList_none, List.append_nil, List.append_nil, written_eq,
    Text.unlines, List.flatMap_map] at hRows

theorem mem_doneUids_torn (hNames : ∀ entry ∈ entries, '\t' ∉ entry.mailbox ∧ '\n' ∉ entry.mailbox) {torn : Text}
    (h : torn <+: written entries) {mailbox : Text} {uid : UInt32} (hDone : (mailbox, uid) ∈ doneUids (parse torn)) :
    (mailbox, uid) ∈ doneUids entries ∨
      ∃ whole entry fragment digits, whole ++ [entry] <+: entries ∧ torn = written whole ++ fragment ∧
        CutNumber entry fragment digits ∧ Text.parseU32 digits = some uid ∧ entry.mailbox = mailbox := by
  rw [written_eq] at h
  obtain ⟨whole, fragment, rfl, hWhole, hFragment⟩ := Text.exists_torn_row formatRow h
  have hWholeNames : ∀ entry ∈ whole, '\t' ∉ entry.mailbox ∧ '\n' ∉ entry.mailbox :=
    fun entry hEntry => hNames entry (hWhole.subset hEntry)
  obtain ⟨loaded, hLoaded, ⟨⟩⟩ := List.mem_map.mp hDone
  rw [← written_eq] at hLoaded ⊢
  obtain rfl | ⟨entry, hEntry, hPart⟩ := hFragment
  · rw [parse_torn hWholeNames List.not_mem_nil, parseLine_of_not_mem List.not_mem_nil] at hLoaded
    simp only [Option.toList_none, List.append_nil] at hLoaded
    exact .inl (List.mem_map_of_mem (hWhole.subset hLoaded))
  · have hName := hNames entry (hEntry.subset (by simp))
    rw [parse_torn hWholeNames fun hMem => not_mem_formatRow hName.2 (hPart.subset hMem)] at hLoaded
    obtain hRow | hTail := List.mem_append.mp hLoaded
    · exact .inl (List.mem_map_of_mem (hWhole.subset hRow))
    · obtain ⟨hMailbox, digits, hCut, hUid⟩ := cutNumber_of_parseLine hName.1 hPart (Option.mem_toList.mp hTail)
      exact .inr ⟨whole, entry, fragment, digits, hEntry, rfl, hCut, hUid, hMailbox.symm⟩

theorem mem_doneUids_of_cutNumber (hNames : ∀ entry ∈ entries, '\t' ∉ entry.mailbox ∧ '\n' ∉ entry.mailbox)
    {entry : CheckpointEntry} (hEntry : whole ++ [entry] <+: entries) {digits : Text} {uid : UInt32}
    (hCut : CutNumber entry fragment digits) (hUid : Text.parseU32 digits = some uid) :
    (entry.mailbox, uid) ∈ doneUids (parse (written whole ++ fragment)) := by
  have hWhole : ∀ other ∈ whole, '\t' ∉ other.mailbox ∧ '\n' ∉ other.mailbox :=
    fun other hOther => hNames other (hEntry.subset (List.mem_append_left _ hOther))
  have hName := hNames entry (hEntry.subset (by simp))
  obtain ⟨uidvalidity, hRead⟩ := parseLine_of_cutNumber hName.1 hCut hUid
  rw [parse_torn hWhole fun hMem => not_mem_formatRow hName.2 (hCut.begins.subset hMem), hRead]
  exact List.mem_map.mpr ⟨⟨entry.mailbox, uidvalidity, uid⟩, by simp, rfl⟩

/-- A checkpoint that is cut off reports only what was appended, exactly when the number in front
of the cut is a UID of its mailbox that was appended. -/
theorem torn_checkpoint_reports_appended_iff (entries : List CheckpointEntry)
    (hNames : ∀ entry ∈ entries, '\t' ∉ entry.mailbox ∧ '\n' ∉ entry.mailbox) (bytes : Nat) :
    (∀ loaded, loadCutOff bytes (written entries) = some loaded → ∀ done ∈ doneUids loaded, done ∈ doneUids entries) ↔
      CutHarmless entries bytes := by
  constructor
  · intro hReported whole entry fragment digits uid hEntry hCut hTorn hUid
    have hLoaded : loadCutOff bytes (written entries) = some (parse (written whole ++ fragment)) := by
      rw [loadCutOff, hTorn, Option.map_some]
    have hDone := hReported _ hLoaded _ (mem_doneUids_of_cutNumber hNames hEntry hCut hUid)
    obtain ⟨appended, hMem, hSame⟩ := List.mem_map.mp hDone
    exact ⟨appended, hMem, congrArg Prod.fst hSame, congrArg Prod.snd hSame⟩
  · rintro hHarmless loaded hLoaded ⟨mailbox, uid⟩ hDone
    obtain ⟨torn, hTorn, rfl⟩ := Option.map_eq_some_iff.mp hLoaded
    obtain hAppended | ⟨whole, entry, fragment, digits, hEntry, rfl, hCut, hUid, rfl⟩ :=
      mem_doneUids_torn hNames (Text.prefix_of_cutOff hTorn) hDone
    · exact hAppended
    · obtain ⟨appended, hMem, hMailbox, rfl⟩ := hHarmless whole entry fragment digits uid hEntry hCut hTorn hUid
      exact List.mem_map.mpr ⟨appended, hMem, by rw [hMailbox]⟩

/-- The second row is cut off in front of its last digit, where it repeats the first one. -/
theorem torn_checkpoint_reports_appended_iff_inbox :
    CutHarmless [⟨"INBOX".toList, some 7, 1⟩, ⟨"INBOX".toList, some 7, 12⟩] 19 := by
  refine (torn_checkpoint_reports_appended_iff _ (by decide +kernel) 19).mp ?_
  intro loaded hLoaded
  have hRead : loadCutOff 19 (written [⟨"INBOX".toList, some 7, 1⟩, ⟨"INBOX".toList, some 7, 12⟩]) =
      some [⟨"INBOX".toList, some 7, 1⟩, ⟨"INBOX".toList, some 7, 1⟩] := by decide +kernel
  rw [hRead] at hLoaded
  cases hLoaded
  decide +kernel

/-- The row of UID 12 that lost its last digit is a row of UID 1. -/
theorem torn_checkpoint_reports_uid_one :
    ∃ loaded, loadCutOff 9 (written [⟨"INBOX".toList, some 7, 12⟩]) = some loaded ∧
      ("INBOX".toList, 1) ∈ doneUids loaded ∧ ("INBOX".toList, 1) ∉ doneUids [⟨"INBOX".toList, some 7, 12⟩] :=
  ⟨[⟨"INBOX".toList, some 7, 1⟩], by decide +kernel, by decide +kernel, by decide +kernel⟩

end Checkpoint

namespace Ledger

theorem getLast?_row {entry : LedgerEntry} (hPlain : entry.Plain) : (row entry).getLast? ≠ some '\r' := by
  have hDigits (n : UInt32) : '\r' ∉ Text.showU32 n := Text.not_mem_showU32 (by decide) n
  intro hLast
  have hMem := List.mem_of_mem_getLast? hLast
  simp [row, hDigits] at hMem
  obtain hMem | hMem := hMem
  · exact (hPlain '\r' (List.mem_append_left _ hMem)).2.1 rfl
  · exact (hPlain '\r' (List.mem_append_right _ hMem)).2.1 rfl

theorem parseLine_prefix_header {line : Text} (h : line <+: header) : parseLine line = none := by
  rw [parseLine, if_pos]
  cases line with
  | nil => exact .inl rfl
  | cons c line =>
    obtain ⟨rfl, -⟩ := List.cons_prefix_cons.mp h
    exact .inr rfl

variable {ledger : Ledger} {appended : List LedgerEntry}

theorem written_eq_unlines : appended.foldl append ledger.serialize =
    Text.unlines (header :: (ledger.entries ++ appended).map row) := by
  rw [foldl_append_eq, serialize, Text.unlines_cons, List.append_assoc, List.cons_append, ← List.flatMap_append,
    Text.unlines, List.flatMap_map]
  rfl

section Torn

variable (hEntries : ∀ entry ∈ ledger.entries ++ appended, entry.Plain ∧ ¬ entry.Commented)

include hEntries in
theorem row_free {text : Text} (hText : text ∈ header :: (ledger.entries ++ appended).map row) : '\n' ∉ text := by
  obtain rfl | hRow := List.mem_cons.mp hText
  · decide
  · obtain ⟨entry, hEntry, rfl⟩ := List.mem_map.mp hRow
    exact not_mem_row (hEntries entry hEntry).1.rowable

include hEntries in
theorem parseLine_row_of_mem {entry : LedgerEntry} (hEntry : entry ∈ ledger.entries ++ appended) :
    parseLine (row entry) = some entry := by
  rw [parseLine_row (hEntries entry hEntry).1.rowable, if_neg (hEntries entry hEntry).2]

include hEntries in
theorem key_mem_parse_written {entry : LedgerEntry} (hEntry : entry ∈ ledger.entries ++ appended) :
    entry.key ∈ parse (appended.foldl append ledger.serialize) := by
  refine (mem_parse _ _).mpr ⟨row entry, ?_, entry, parseLine_row_of_mem hEntries hEntry, rfl⟩
  rw [lines_written ledger appended fun other hOther => (hEntries other hOther).1.rowable]
  refine List.mem_cons_of_mem _ (List.mem_map.mpr ⟨entry, hEntry, ?_⟩)
  exact stripCr_row_of_plain (hEntries entry hEntry).1

include hEntries in
theorem mem_parse_of_prefix {torn : Text} (hTorn : torn <+: appended.foldl append ledger.serialize) {key : LedgerKey}
    (hKey : key ∈ parse torn) : key ∈ parse (appended.foldl append ledger.serialize) := by
  obtain ⟨line, hLine, loaded, hRead, rfl⟩ := (mem_parse _ _).mp hKey
  rw [written_eq_unlines] at hTorn
  obtain ⟨text, hText, hPart⟩ := Text.exists_prefix_of_mem_lines (fun _ => row_free hEntries) hTorn hLine
  obtain rfl | hRow := List.mem_cons.mp hText
  · rw [parseLine_prefix_header hPart] at hRead
    cases hRead
  · obtain ⟨entry, hEntry, rfl⟩ := List.mem_map.mp hRow
    rw [key_of_parseLine (hEntries entry hEntry).1.rowable hPart hRead]
    exact key_mem_parse_written hEntries hEntry

include hEntries in
theorem key_mem_parse_of_row {torn : Text} (hTorn : torn <+: appended.foldl append ledger.serialize)
    {before : List LedgerEntry} {entry : LedgerEntry} (hBefore : before ++ [entry] <+: ledger.entries ++ appended)
    (hIn : header ++ '\n' :: (before.flatMap writtenRow ++ row entry) <+: torn) : entry.key ∈ parse torn := by
  have hEntry : entry ∈ ledger.entries ++ appended := hBefore.subset (by simp)
  obtain ⟨hPlain, -⟩ := hEntries entry hEntry
  refine (mem_parse _ _).mpr ⟨row entry, ?_, entry, parseLine_row_of_mem hEntries hEntry, rfl⟩
  obtain ⟨after, hAfter⟩ := hBefore
  have hText : appended.foldl append ledger.serialize = Text.unlines (header :: before.map row) ++
      (row entry ++ '\n' :: Text.unlines (after.map row)) := by
    rw [written_eq_unlines, ← hAfter]
    simp [Text.unlines]
  have hPart : torn <+: Text.unlines (header :: before.map row) ++ (row entry ++ '\n' :: Text.unlines (after.map row)) :=
    hText ▸ hTorn
  refine Text.mem_lines_of_row_prefix ?_ (not_mem_row hPlain.rowable) (getLast?_row hPlain) (row_ne_nil entry) hPart ?_
  · intro other hOther
    apply row_free hEntries
    rw [← hAfter]
    simp only [List.map_append, List.mem_cons, List.mem_append] at hOther ⊢
    exact hOther.imp_right fun hMem => .inl (.inl hMem)
  · rwa [Text.unlines_cons, Text.unlines, List.flatMap_map, List.append_assoc, List.cons_append]

end Torn

/-- A ledger that is cut off has no key that was not written, and it has the key of every row that
lies in front of the cut. -/
theorem torn_ledger_keys (ledger : Ledger) (appended : List LedgerEntry)
    (hEntries : ∀ entry ∈ ledger.entries ++ appended, entry.Plain ∧ ¬ entry.Commented) (bytes : Nat) (torn : Text)
    (hTorn : Text.cutOff bytes (appended.foldl append ledger.serialize) = some torn) :
    (∀ key ∈ parse torn, key ∈ parse (appended.foldl append ledger.serialize)) ∧
      ∀ before entry, before ++ [entry] <+: ledger.entries ++ appended →
        header ++ '\n' :: (before.flatMap writtenRow ++ row entry) <+: torn → entry.key ∈ parse torn := by
  have hPrefix := Text.prefix_of_cutOff hTorn
  constructor
  · intro key hKey
    exact mem_parse_of_prefix hEntries hPrefix hKey
  · intro before entry hBefore hIn
    exact key_mem_parse_of_row hEntries hPrefix hBefore hIn

theorem torn_ledger_keys_inbox :
    ("INBOX".toList, 7, 2) ∈ parse "# mailbox\tuidvalidity\tuid\tingested_at\nINBOX\t7\t2\t2026-10-20\nArchive\t9\t1".toList :=
  (torn_ledger_keys (insertAll ∅ [⟨"INBOX".toList, 7, 2, "2026-10-20".toList⟩])
    [⟨"Archive".toList, 9, 12, "2026-10-21".toList⟩] (by decide +kernel) 70 _ (by decide +kernel)).2
    [] ⟨"INBOX".toList, 7, 2, "2026-10-20".toList⟩ (by decide +kernel) (by decide +kernel)

end Ledger

end Pigeon.EmailImport
