import Pigeon.Library.Torn

/-! # The durable ingest ledger: its text format

A ledger maps `(mailbox, UIDVALIDITY, UID)` to the moment the message was first ingested.
It is written as one tab-separated row per message below a header line, extended by
appending rows, and read back leniently: a blank line, a `#` line and a malformed row are
skipped.
-/
namespace Pigeon.EmailImport

open Library

set_option autoImplicit false

structure LedgerEntry where
  mailbox : Text
  uidvalidity : UInt32
  uid : UInt32
  ingestedAt : Text
deriving DecidableEq, Repr

abbrev LedgerKey := Text × UInt32 × UInt32

def LedgerEntry.key (entry : LedgerEntry) : LedgerKey := (entry.mailbox, entry.uidvalidity, entry.uid)

def LedgerKey.compare : LedgerKey → LedgerKey → Ordering :=
  compareLex (compareOn Prod.fst) (compareLex (compareOn (Prod.fst ∘ Prod.snd)) (compareOn (Prod.snd ∘ Prod.snd)))

instance : Std.TransCmp LedgerKey.compare := by
  unfold LedgerKey.compare
  infer_instance

instance : Std.LawfulEqCmp LedgerKey.compare where
  compare_self := Std.ReflCmp.compare_self
  eq_of_compare {a b} h := by
    obtain ⟨hMailbox, hRest⟩ := compareLex_eq_eq.mp h
    obtain ⟨hValidity, hUid⟩ := compareLex_eq_eq.mp hRest
    exact Prod.ext (Std.LawfulEqCmp.eq_of_compare hMailbox)
      (Prod.ext (Std.LawfulEqCmp.eq_of_compare hValidity) (Std.LawfulEqCmp.eq_of_compare hUid))

abbrev Ledger := Std.ExtTreeMap LedgerKey Text LedgerKey.compare

namespace Ledger

/-- The row is added unless the key already has an `ingested_at` that is not later. -/
def insert (ledger : Ledger) (entry : LedgerEntry) : Ledger :=
  match ledger[entry.key]? with
  | some existing =>
    if existing ≤ entry.ingestedAt then ledger else Std.ExtTreeMap.insert ledger entry.key entry.ingestedAt
  | none => Std.ExtTreeMap.insert ledger entry.key entry.ingestedAt

def insertAll (ledger : Ledger) (entries : List LedgerEntry) : Ledger :=
  entries.foldl insert ledger

/-- LEDGER_HEADER -/
def header : Text := "# mailbox\tuidvalidity\tuid\tingested_at".toList

def parseLine (line : Text) : Option LedgerEntry :=
  if Text.trim line = [] ∨ line.head? = some '#' then none
  else
    match line.splitOn '\t' with
    | [mailbox, uidvalidity, uid, ingestedAt] =>
      match Text.parseU32 uidvalidity, Text.parseU32 uid with
      | some uidvalidity, some uid => some { mailbox, uidvalidity, uid, ingestedAt }
      | _, _ => none
    | _ => none

def parse (contents : Text) : Ledger := insertAll ∅ ((Text.lines contents).filterMap parseLine)

def row (entry : LedgerEntry) : Text :=
  entry.mailbox ++ '\t' :: (Text.showU32 entry.uidvalidity ++ '\t' ::
    (Text.showU32 entry.uid ++ '\t' :: entry.ingestedAt))

/-- What one `writeln!` of `append` adds to the file. -/
def writtenRow (entry : LedgerEntry) : Text := row entry ++ ['\n']

def append (contents : Text) (entry : LedgerEntry) : Text := contents ++ writtenRow entry

/-- The append with an outcome of its own. -/
def appendWith (contents : Text) (entry : LedgerEntry) (outcome : Text.AppendOutcome) : Text :=
  Text.appendLine contents (row entry) outcome

@[simp] theorem appendWith_ok (contents : Text) (entry : LedgerEntry) :
    appendWith contents entry .ok = append contents entry := rfl

def entries (ledger : Ledger) : List LedgerEntry :=
  ledger.toList.map fun (key, ingestedAt) =>
    { mailbox := key.1, uidvalidity := key.2.1, uid := key.2.2, ingestedAt }

def serialize (ledger : Ledger) : Text := header ++ '\n' :: ledger.entries.flatMap writtenRow

def ingestedUids (ledger : Ledger) (mailbox : Text) (uidvalidity : UInt32) : List UInt32 :=
  (ledger.keys.filter fun key => key.1 == mailbox && key.2.1 == uidvalidity).map fun key => key.2.2

end Ledger

/-- No field holds a tab, a carriage return or a line feed. -/
def LedgerEntry.Plain (entry : LedgerEntry) : Prop :=
  ∀ c ∈ entry.mailbox ++ entry.ingestedAt, c ≠ '\t' ∧ c ≠ '\r' ∧ c ≠ '\n'

instance (entry : LedgerEntry) : Decidable entry.Plain := List.decidableBAll _ _

/-- No field breaks the row. -/
def LedgerEntry.Rowable (entry : LedgerEntry) : Prop :=
  ∀ c ∈ entry.mailbox ++ entry.ingestedAt, c ≠ '\t' ∧ c ≠ '\n'

theorem LedgerEntry.Rowable.stripCr {entry : LedgerEntry} (h : entry.Rowable) :
    LedgerEntry.Rowable { entry with ingestedAt := Text.stripCr entry.ingestedAt } := by
  intro c hMem
  apply h c
  obtain hMem | hMem := List.mem_append.mp hMem
  · exact List.mem_append_left _ hMem
  · exact List.mem_append_right _ (Text.stripCr_subset _ hMem)

theorem LedgerEntry.Plain.rowable {entry : LedgerEntry} (h : entry.Plain) : entry.Rowable :=
  fun c hMem => ⟨(h c hMem).1, (h c hMem).2.2⟩

def LedgerEntry.Commented (entry : LedgerEntry) : Prop := entry.mailbox.head? = some '#'

instance (entry : LedgerEntry) : Decidable entry.Commented := by unfold LedgerEntry.Commented; infer_instance

namespace Ledger

/-! ## Keys -/

theorem getElem?_insert (ledger : Ledger) (entry : LedgerEntry) (key : LedgerKey) :
    (ledger.insert entry)[key]? =
      if entry.key = key then some (match ledger[key]? with
        | some existing => if existing ≤ entry.ingestedAt then existing else entry.ingestedAt
        | none => entry.ingestedAt)
      else ledger[key]? := by
  by_cases hKey : entry.key = key
  · subst key
    rw [if_pos rfl, insert]
    cases hFound : ledger[entry.key]? with
    | none => simp
    | some existing =>
      by_cases hEarlier : existing ≤ entry.ingestedAt
      · simp [hEarlier, hFound]
      · simp [hEarlier]
  · rw [if_neg hKey, insert]
    have hOther : (Std.ExtTreeMap.insert ledger entry.key entry.ingestedAt)[key]? = ledger[key]? := by
      rw [Std.ExtTreeMap.getElem?_insert, if_neg (by simpa using hKey)]
    split
    · split
      · rfl
      · exact hOther
    · exact hOther

@[simp] theorem mem_insert (ledger : Ledger) (entry : LedgerEntry) (key : LedgerKey) :
    key ∈ ledger.insert entry ↔ entry.key = key ∨ key ∈ ledger := by
  rw [← Std.ExtTreeMap.isSome_getElem?_iff_mem, ← Std.ExtTreeMap.isSome_getElem?_iff_mem, getElem?_insert]
  by_cases hKey : entry.key = key
  · simp [hKey]
  · simp [hKey]

@[simp] theorem mem_insertAll (ledger : Ledger) (entries : List LedgerEntry) (key : LedgerKey) :
    key ∈ ledger.insertAll entries ↔ (∃ entry ∈ entries, entry.key = key) ∨ key ∈ ledger := by
  induction entries generalizing ledger with
  | nil => simp [insertAll]
  | cons entry entries ih =>
    have hStep := ih (ledger.insert entry)
    rw [insertAll] at hStep ⊢
    rw [List.foldl_cons, hStep, mem_insert, or_left_comm, ← or_assoc]
    simp only [List.mem_cons, exists_eq_or_imp]

theorem mem_parse (contents : Text) (key : LedgerKey) :
    key ∈ parse contents ↔ ∃ line ∈ Text.lines contents, ∃ entry, parseLine line = some entry ∧ entry.key = key := by
  simp only [parse, mem_insertAll, List.mem_filterMap, Std.ExtTreeMap.not_mem_empty, or_false]
  constructor
  · rintro ⟨entry, ⟨line, hLine, hParsed⟩, hKey⟩
    exact ⟨line, hLine, entry, hParsed, hKey⟩
  · rintro ⟨line, hLine, entry, hParsed, hKey⟩
    exact ⟨entry, ⟨line, hLine, hParsed⟩, hKey⟩

theorem mem_ingestedUids (ledger : Ledger) (mailbox : Text) (uidvalidity uid : UInt32) :
    uid ∈ ledger.ingestedUids mailbox uidvalidity ↔ (mailbox, uidvalidity, uid) ∈ ledger := by
  simp only [ingestedUids, List.mem_map, List.mem_filter, Std.ExtTreeMap.mem_keys, Bool.and_eq_true,
    beq_iff_eq, Prod.exists]
  constructor
  · rintro ⟨_, _, _, ⟨hMem, rfl, rfl⟩, rfl⟩
    exact hMem
  · intro hMem
    exact ⟨mailbox, uidvalidity, uid, ⟨hMem, rfl, rfl⟩, rfl⟩

theorem getElem?_insertAll_of_distinct (entries : List LedgerEntry) (ledger : Ledger)
    (hDistinct : entries.Pairwise fun a b => a.key ≠ b.key) (hFresh : ∀ entry ∈ entries, entry.key ∉ ledger)
    (entry : LedgerEntry) (hEntry : entry ∈ entries) :
    (ledger.insertAll entries)[entry.key]? = some entry.ingestedAt := by
  induction entries using List.reverseRecOn with
  | nil => cases hEntry
  | append_singleton entries last ih =>
    obtain ⟨hInit, -, hLast⟩ := List.pairwise_append.mp hDistinct
    have hAbsent : (ledger.insertAll entries)[last.key]? = none := by
      apply Std.ExtTreeMap.getElem?_eq_none
      rw [mem_insertAll]
      rintro (⟨other, hOther, hKey⟩ | hMem)
      · exact hLast other hOther last (by simp) hKey
      · exact hFresh last (by simp) hMem
    have hSplit : ledger.insertAll (entries ++ [last]) = (ledger.insertAll entries).insert last := by
      simp [insertAll]
    rw [hSplit, getElem?_insert]
    obtain hInit' | hLast' := List.mem_append.mp hEntry
    · have hNe : last.key ≠ entry.key := fun hKey => hLast entry hInit' last (by simp) hKey.symm
      rw [if_neg hNe]
      exact ih hInit (fun other hOther => hFresh other (by simp [hOther])) hInit'
    · obtain rfl := List.mem_singleton.mp hLast'
      rw [if_pos rfl, hAbsent]

theorem mem_entries (ledger : Ledger) (entry : LedgerEntry) :
    entry ∈ ledger.entries ↔ ledger[entry.key]? = some entry.ingestedAt := by
  rw [← Std.ExtTreeMap.mem_toList_iff_getElem?_eq_some, entries, List.mem_map]
  constructor
  · rintro ⟨⟨key, ingestedAt⟩, hMem, rfl⟩
    exact hMem
  · intro hMem
    exact ⟨(entry.key, entry.ingestedAt), hMem, rfl⟩

theorem pairwise_entries (ledger : Ledger) : ledger.entries.Pairwise fun a b => a.key ≠ b.key := by
  rw [entries, List.pairwise_map]
  apply Std.ExtTreeMap.distinct_keys_toList.imp
  rintro ⟨key, _⟩ ⟨other, _⟩ hNe hEq
  apply hNe
  rw [show key = other from hEq]
  exact Std.ReflCmp.compare_self

theorem insertAll_entries (ledger : Ledger) : insertAll ∅ ledger.entries = ledger := by
  apply Std.ExtTreeMap.ext_getElem?
  intro key
  cases hFound : ledger[key]? with
  | some ingestedAt =>
    let entry : LedgerEntry :=
      { mailbox := key.1, uidvalidity := key.2.1, uid := key.2.2, ingestedAt }
    exact getElem?_insertAll_of_distinct ledger.entries ∅ ledger.pairwise_entries (by simp) entry
      ((mem_entries ledger entry).mpr hFound)
  | none =>
    apply Std.ExtTreeMap.getElem?_eq_none
    rw [mem_insertAll]
    rintro (⟨entry, hEntry, rfl⟩ | hMem)
    · rw [mem_entries, hFound] at hEntry
      cases hEntry
    · simp at hMem

theorem insertAll_append (ledger : Ledger) (first second : List LedgerEntry) :
    ledger.insertAll (first ++ second) = (ledger.insertAll first).insertAll second :=
  List.foldl_append

/-! ## Rows -/

theorem not_mem_row {entry : LedgerEntry} (hRowable : entry.Rowable) : '\n' ∉ row entry := by
  intro hMem
  have hDigits (n : UInt32) : '\n' ∉ Text.showU32 n := Text.not_mem_showU32 (by decide) n
  simp [row, hDigits] at hMem
  obtain hMem | hMem := hMem
  · exact (hRowable '\n' (List.mem_append_left _ hMem)).2 rfl
  · exact (hRowable '\n' (List.mem_append_right _ hMem)).2 rfl

/-- A carriage return at the end of a row belongs to its timestamp. -/
theorem stripCr_row (entry : LedgerEntry) :
    Text.stripCr (row entry) = row { entry with ingestedAt := Text.stripCr entry.ingestedAt } := by
  have hShape (rest : Text) : entry.mailbox ++ '\t' :: (Text.showU32 entry.uidvalidity ++ '\t' ::
      (Text.showU32 entry.uid ++ rest)) = (entry.mailbox ++ '\t' :: (Text.showU32 entry.uidvalidity ++ '\t' ::
      Text.showU32 entry.uid)) ++ rest := by simp
  rw [row, row, hShape, Text.stripCr_append_cons _ (by decide), ← hShape]

theorem stripCr_row_of_plain {entry : LedgerEntry} (hPlain : entry.Plain) : Text.stripCr (row entry) = row entry := by
  rw [stripCr_row, Text.stripCr_of_getLast_ne]
  intro hLast
  exact (hPlain '\r' (List.mem_append_right _ (List.mem_of_mem_getLast? hLast))).2.1 rfl

theorem splitOn_row {entry : LedgerEntry} (hRowable : entry.Rowable) :
    (row entry).splitOn '\t' =
      [entry.mailbox, Text.showU32 entry.uidvalidity, Text.showU32 entry.uid, entry.ingestedAt] := by
  have hMailbox : '\t' ∉ entry.mailbox := fun hMem => (hRowable '\t' (List.mem_append_left _ hMem)).1 rfl
  have hIngested : '\t' ∉ entry.ingestedAt := fun hMem => (hRowable '\t' (List.mem_append_right _ hMem)).1 rfl
  have hDigits (n : UInt32) : '\t' ∉ Text.showU32 n := Text.not_mem_showU32 (by decide) n
  rw [row, List.splitOn_append_cons_self_of_not_mem hMailbox,
    List.splitOn_append_cons_self_of_not_mem (hDigits _),
    List.splitOn_append_cons_self_of_not_mem (hDigits _), List.splitOn_eq_singleton hIngested]

theorem trim_row (entry : LedgerEntry) : Text.trim (row entry) ≠ [] := by
  obtain ⟨c, rest, hDigits⟩ := List.exists_cons_of_ne_nil (Text.showU32_ne_nil entry.uid)
  have hDigit : c.isDigit := Text.isDigit_of_mem_showU32 (hDigits ▸ List.mem_cons_self)
  apply Text.trim_ne_nil_of_mem (c := c)
  · simp [row, hDigits]
  · exact Text.isWhitespace_of_isDigit hDigit

theorem row_ne_nil (entry : LedgerEntry) : row entry ≠ [] := by
  intro hNil
  exact trim_row entry (by rw [hNil]; rfl)

theorem head?_row (entry : LedgerEntry) : (row entry).head? = some '#' ↔ entry.Commented := by
  rw [row, LedgerEntry.Commented]
  cases entry.mailbox with
  | nil => simp
  | cons c mailbox => simp

theorem parseLine_row {entry : LedgerEntry} (hRowable : entry.Rowable) :
    parseLine (row entry) = if entry.Commented then none else some entry := by
  rw [parseLine]
  split
  · rename_i hSkipped
    exact (if_pos ((head?_row entry).mp (hSkipped.resolve_left (trim_row entry)))).symm
  · rename_i hData
    rw [if_neg fun hComment => hData (.inr ((head?_row entry).mpr hComment)), splitOn_row hRowable]
    simp

theorem parseLine_header : parseLine header = none := by
  rw [parseLine, if_pos (.inr (by decide))]

theorem parseLine_of_length {line : Text} (h : (line.splitOn '\t').length ≠ 4) : parseLine line = none := by
  rw [parseLine]
  split
  · rfl
  · split
    · rename_i hFields
      rw [hFields] at h
      exact absurd rfl h
    · rfl

theorem key_of_parseLine {entry : LedgerEntry} (hRowable : entry.Rowable) {fragment : Text} (hFragment : fragment <+: row entry)
    {loaded : LedgerEntry} (hRead : parseLine fragment = some loaded) : loaded.key = entry.key := by
  have hMailbox : '\t' ∉ entry.mailbox := fun hMem => (hRowable '\t' (List.mem_append_left _ hMem)).1 rfl
  have hDigits (n : UInt32) : '\t' ∉ Text.showU32 n := Text.not_mem_showU32 (by decide) n
  have hShort (h : (fragment.splitOn '\t').length ≠ 4) : loaded.key = entry.key := by
    rw [parseLine_of_length h] at hRead
    cases hRead
  rw [row] at hFragment
  obtain hFirst | ⟨second, rfl, hSecond⟩ := Text.prefix_append_cons hFragment
  · apply hShort
    rw [List.splitOn_eq_singleton fun hMem => hMailbox (hFirst.subset hMem)]
    simp
  · obtain hSecond | ⟨third, rfl, hThird⟩ := Text.prefix_append_cons hSecond
    · apply hShort
      rw [List.splitOn_append_cons_self_of_not_mem hMailbox,
        List.splitOn_eq_singleton fun hMem => hDigits _ (hSecond.subset hMem)]
      simp
    · obtain hThird | ⟨ingestedAt, rfl, hLast⟩ := Text.prefix_append_cons hThird
      · apply hShort
        rw [List.splitOn_append_cons_self_of_not_mem hMailbox, List.splitOn_append_cons_self_of_not_mem (hDigits _),
          List.splitOn_eq_singleton fun hMem => hDigits _ (hThird.subset hMem)]
        simp
      · have hCut : LedgerEntry.Rowable { entry with ingestedAt } := by
          intro c hMem
          apply hRowable c
          obtain hMem | hMem := List.mem_append.mp hMem
          · exact List.mem_append_left _ hMem
          · exact List.mem_append_right _ (hLast.subset hMem)
        have hWhole : parseLine (row { entry with ingestedAt }) = some loaded := hRead
        rw [parseLine_row hCut] at hWhole
        split at hWhole
        · cases hWhole
        · cases hWhole
          rfl

theorem parseLine_shape {line : Text} {entry : LedgerEntry} (h : parseLine line = some entry) :
    line.head? ≠ some '#' ∧ '\t' ∉ entry.mailbox ∧ '\t' ∉ entry.ingestedAt ∧
      ∃ uidvalidity uid, line = entry.mailbox ++ '\t' :: (uidvalidity ++ '\t' :: (uid ++ '\t' :: entry.ingestedAt)) := by
  rw [parseLine] at h
  split at h
  · cases h
  · rename_i hData
    split at h
    · rename_i mailbox uidvalidity uid ingestedAt hFields
      split at h
      · cases h
        have hLine : ['\t'].intercalate (line.splitOn '\t') = line := List.intercalate_splitOn '\t'
        have hFree (field : Text) (hField : field ∈ line.splitOn '\t') : '\t' ∉ field :=
          Text.not_mem_of_mem_splitOn hField
        rw [hFields] at hLine hFree
        refine ⟨fun hHead => hData (.inr hHead), hFree mailbox (by simp), hFree ingestedAt (by simp), uidvalidity, uid, ?_⟩
        rw [← hLine]
        simp [List.intercalate]
      · cases h
    · cases h

theorem not_commented_of_parseLine {line : Text} {entry : LedgerEntry} (h : parseLine line = some entry) :
    ¬ entry.Commented := by
  intro hComment
  obtain ⟨hHead, -, -, uidvalidity, uid, rfl⟩ := parseLine_shape h
  rw [LedgerEntry.Commented] at hComment
  cases hMailbox : entry.mailbox with
  | nil =>
    rw [hMailbox] at hComment
    cases hComment
  | cons c mailbox =>
    rw [hMailbox] at hHead hComment
    exact hHead hComment

theorem rowable_of_parseLine {line : Text} {entry : LedgerEntry} (hLine : '\n' ∉ line)
    (h : parseLine line = some entry) : entry.Rowable := by
  obtain ⟨-, hMailbox, hIngested, uidvalidity, uid, rfl⟩ := parseLine_shape h
  intro c hMem
  constructor
  · rintro rfl
    exact (List.mem_append.mp hMem).elim hMailbox hIngested
  · rintro rfl
    apply hLine
    obtain hMem | hMem := List.mem_append.mp hMem
    · exact List.mem_append_left _ hMem
    · simp [hMem]

theorem filterMap_parseLine_rows {entries : List LedgerEntry}
    (hEntries : ∀ entry ∈ entries, entry.Plain ∧ ¬ entry.Commented) :
    (entries.map (Text.stripCr ∘ row)).filterMap parseLine = entries := by
  induction entries with
  | nil => rfl
  | cons entry entries ih =>
    obtain ⟨hPlain, hData⟩ := hEntries entry List.mem_cons_self
    rw [List.map_cons, List.filterMap_cons, Function.comp_apply, stripCr_row_of_plain hPlain,
      parseLine_row hPlain.rowable, if_neg hData,
      ih (fun other hOther => hEntries other (List.mem_cons_of_mem entry hOther))]

theorem foldl_append_eq (contents : Text) (appended : List LedgerEntry) :
    appended.foldl append contents = contents ++ appended.flatMap writtenRow := by
  induction appended generalizing contents with
  | nil => simp
  | cons entry appended ih => rw [List.foldl_cons, ih, append, List.flatMap_cons, List.append_assoc]

theorem lines_written (ledger : Ledger) (appended : List LedgerEntry)
    (hRowable : ∀ entry ∈ ledger.entries ++ appended, entry.Rowable) :
    Text.lines (appended.foldl append ledger.serialize) =
      header :: (ledger.entries ++ appended).map (Text.stripCr ∘ row) := by
  have hRows : ∀ line ∈ (ledger.entries ++ appended).map row, '\n' ∉ line := by
    intro line hLine
    obtain ⟨entry, hEntry, rfl⟩ := List.mem_map.mp hLine
    exact not_mem_row (hRowable entry hEntry)
  have hText : appended.foldl append ledger.serialize =
      header ++ '\n' :: (((ledger.entries ++ appended).map row).flatMap (· ++ ['\n']) ++ []) := by
    rw [foldl_append_eq, serialize, List.append_assoc, List.cons_append, ← List.flatMap_append, List.flatMap_map,
      List.append_nil]
    rfl
  rw [hText, Text.lines_append_newline _ _ (by decide), Text.lines_flatMap_append _ _ hRows, Text.lines_nil,
    List.append_nil, List.map_map, Text.stripCr_of_getLast_ne _ (by decide)]

theorem parse_written (ledger : Ledger) (appended : List LedgerEntry)
    (hEntries : ∀ entry ∈ ledger.entries ++ appended, entry.Plain ∧ ¬ entry.Commented) :
    parse (appended.foldl append ledger.serialize) = ledger.insertAll appended := by
  rw [parse, lines_written ledger appended fun entry hEntry => (hEntries entry hEntry).1.rowable,
    List.filterMap_cons, parseLine_header, filterMap_parseLine_rows hEntries, insertAll_append,
    insertAll_entries]

theorem mem_of_mem_parse_serialize {ledger : Ledger} (hRowable : ∀ entry ∈ ledger.entries, entry.Rowable)
    {key : LedgerKey} (h : key ∈ parse ledger.serialize) : key ∈ ledger := by
  obtain ⟨line, hLine, read, hRead, rfl⟩ := (mem_parse _ _).mp h
  have hLines := lines_written ledger [] (by simpa using hRowable)
  rw [List.foldl_nil, List.append_nil] at hLines
  rw [hLines] at hLine
  obtain rfl | hRow := List.mem_cons.mp hLine
  · rw [parseLine_header] at hRead
    cases hRead
  · obtain ⟨entry, hEntry, rfl⟩ := List.mem_map.mp hRow
    have hStripped := (hRowable entry hEntry).stripCr
    rw [Function.comp_apply, stripCr_row, parseLine_row hStripped] at hRead
    split at hRead
    · cases hRead
    · cases hRead
      rw [← Std.ExtTreeMap.isSome_getElem?_iff_mem]
      change ledger[entry.key]?.isSome
      rw [(mem_entries ledger entry).mp hEntry]
      rfl

theorem mem_entries_insertAll {inserted : List LedgerEntry} {entry : LedgerEntry}
    (hEntry : entry ∈ (insertAll ∅ inserted).entries) : entry ∈ inserted := by
  rw [mem_entries] at hEntry
  induction inserted using List.reverseRecOn with
  | nil => simp [insertAll] at hEntry
  | append_singleton inserted last ih =>
    rw [insertAll, List.foldl_append] at hEntry
    change (insert (insertAll ∅ inserted) last)[entry.key]? = _ at hEntry
    rw [getElem?_insert] at hEntry
    have hInit (h : (insertAll ∅ inserted)[entry.key]? = some entry.ingestedAt) :
        entry ∈ inserted ++ [last] := List.mem_append_left _ (ih h)
    have hLast (hKey : last.key = entry.key) (hAt : last.ingestedAt = entry.ingestedAt) :
        entry ∈ inserted ++ [last] := by
      have hEq : last = entry := by
        cases last
        cases entry
        simp_all [LedgerEntry.key]
      exact List.mem_append_right _ (List.mem_singleton.mpr hEq.symm)
    split at hEntry
    · rename_i hKey
      split at hEntry
      · rename_i existing hFound
        split at hEntry
        · exact hInit (hFound.trans hEntry)
        · exact hLast hKey (Option.some.inj hEntry)
      · exact hLast hKey (Option.some.inj hEntry)
    · exact hInit hEntry

theorem rowable_parse {contents : Text} {entry : LedgerEntry} (h : entry ∈ (parse contents).entries) : entry.Rowable := by
  obtain ⟨line, hLine, hParsed⟩ := List.mem_filterMap.mp (mem_entries_insertAll h)
  exact rowable_of_parseLine (Text.not_mem_of_mem_lines hLine) hParsed

theorem not_commented_parse {contents : Text} {entry : LedgerEntry} (h : entry ∈ (parse contents).entries) :
    ¬ entry.Commented := by
  obtain ⟨line, -, hParsed⟩ := List.mem_filterMap.mp (mem_entries_insertAll h)
  exact not_commented_of_parseLine hParsed

theorem mem_parse_serialize_parse {contents : Text} {key : LedgerKey} (h : key ∈ parse contents) :
    key ∈ parse (parse contents).serialize := by
  obtain ⟨ingestedAt, hFound⟩ := Option.isSome_iff_exists.mp (Std.ExtTreeMap.isSome_getElem?_iff_mem.mpr h)
  let entry : LedgerEntry := { mailbox := key.1, uidvalidity := key.2.1, uid := key.2.2, ingestedAt }
  have hEntry : entry ∈ (parse contents).entries := (mem_entries _ _).mpr hFound
  have hStripped : LedgerEntry.Rowable { entry with ingestedAt := Text.stripCr ingestedAt } :=
    (rowable_parse hEntry).stripCr
  have hLines := lines_written (parse contents) [] (by simpa using fun entry hEntry => rowable_parse hEntry)
  refine (mem_parse _ _).mpr ⟨Text.stripCr (row entry), ?_, { entry with ingestedAt := Text.stripCr ingestedAt }, ?_, rfl⟩
  · rw [List.foldl_nil, List.append_nil] at hLines
    rw [hLines]
    exact List.mem_cons_of_mem _ (List.mem_map_of_mem hEntry)
  · rw [stripCr_row, parseLine_row hStripped]
    exact if_neg (not_commented_parse hEntry)

/-- Writing a ledger, appending rows and reading the text gives the ledger with those rows
inserted, and does so exactly when no mailbox starts with the comment sign. -/
theorem parse_serialize_append_iff (inserted appended : List LedgerEntry)
    (hPlain : ∀ entry ∈ inserted ++ appended, entry.Plain) :
    (parse (insertAll ∅ inserted).serialize = insertAll ∅ inserted ∧
      parse (appended.foldl append (insertAll ∅ inserted).serialize) =
        (insertAll ∅ inserted).insertAll appended) ↔
    ∀ entry ∈ inserted ++ appended, ¬ entry.Commented := by
  constructor
  · rintro ⟨-, hBoth⟩ entry hEntry
    have hKey : entry.key ∈ parse (appended.foldl append (insertAll ∅ inserted).serialize) := by
      rw [hBoth, ← insertAll_append, mem_insertAll]
      exact .inl ⟨entry, hEntry, rfl⟩
    obtain ⟨line, -, parsed, hParsed, hSame⟩ := (mem_parse _ _).mp hKey
    have hMailbox : parsed.mailbox = entry.mailbox := congrArg Prod.fst hSame
    have hData := not_commented_of_parseLine hParsed
    rwa [LedgerEntry.Commented, hMailbox] at hData
  · intro hData
    have hBuilt : ∀ entry ∈ (insertAll ∅ inserted).entries, entry.Plain ∧ ¬ entry.Commented := by
      intro entry hEntry
      have hInserted : entry ∈ inserted ++ appended := List.mem_append_left _ (mem_entries_insertAll hEntry)
      exact ⟨hPlain entry hInserted, hData entry hInserted⟩
    refine ⟨parse_written _ [] (by simpa using hBuilt), parse_written _ appended ?_⟩
    intro entry hEntry
    obtain hOld | hNew := List.mem_append.mp hEntry
    · exact hBuilt entry hOld
    · exact ⟨hPlain entry (List.mem_append_right _ hNew), hData entry (List.mem_append_right _ hNew)⟩

theorem parse_serialize_append_iff_inbox :
    parse (insertAll ∅ [⟨"INBOX".toList, 7, 2, "2026-10-20".toList⟩]).serialize =
      insertAll ∅ [⟨"INBOX".toList, 7, 2, "2026-10-20".toList⟩] :=
  ((parse_serialize_append_iff [⟨"INBOX".toList, 7, 2, "2026-10-20".toList⟩]
    [⟨"Archive/2020".toList, 9, 1, "2026-10-19".toList⟩] (by decide)).mpr (by decide)).1

/-- The row of a mailbox whose name starts with `#` is skipped as a comment. -/
theorem parse_serialize_loses_hash_mailbox :
    ∃ entry : LedgerEntry, entry.Plain ∧ parse (insertAll ∅ [entry]).serialize ≠ insertAll ∅ [entry] := by
  refine ⟨⟨"#news.announce".toList, 7, 2, "2026-10-20T00:00:00Z".toList⟩, by decide, ?_⟩
  intro hEq
  have hMem : ("#news.announce".toList, 7, 2) ∈
      parse (insertAll ∅ [⟨"#news.announce".toList, 7, 2, "2026-10-20T00:00:00Z".toList⟩]).serialize := by
    rw [hEq]
    decide
  revert hMem
  decide

end Ledger

end Pigeon.EmailImport
