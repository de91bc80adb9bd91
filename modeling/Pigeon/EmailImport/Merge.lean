import Pigeon.Library.Earliest
import Pigeon.Library.Rows
import Pigeon.EmailImport.Ledger

/-! # Merging ledgers

A ledger stands for the earliest `ingested_at` of each key among the entries that were inserted, so rows may come from
the seed, the remote file and the local one in any order.
-/
namespace Pigeon.EmailImport

open Library

set_option autoImplicit false

/-- The key with its value. -/
def LedgerEntry.keyed (entry : LedgerEntry) : LedgerKey × Text := (entry.key, entry.ingestedAt)

namespace Ledger

/-- When the key was first ingested; no time at all for a key without a row. -/
def firstIngested (ledger : Ledger) (key : LedgerKey) : WithTop Text := ledger[key]?

/-- Every row of the second ledger is inserted into the first. -/
def merge (first second : Ledger) : Ledger := first.insertAll second.entries

theorem firstIngested_eq_coe (ledger : Ledger) (key : LedgerKey) (ingestedAt : Text) :
    ledger.firstIngested key = ingestedAt ↔ ledger[key]? = some ingestedAt := Iff.rfl

theorem ext_firstIngested {first second : Ledger} (h : ∀ key, first.firstIngested key = second.firstIngested key) :
    first = second := Std.ExtTreeMap.ext_getElem? fun key => h key

@[simp]
theorem firstIngested_empty (key : LedgerKey) : (∅ : Ledger).firstIngested key = ⊤ := by
  rw [firstIngested, Std.ExtTreeMap.getElem?_empty]
  rfl

theorem firstIngested_insert (ledger : Ledger) (entry : LedgerEntry) (key : LedgerKey) :
    (ledger.insert entry).firstIngested key =
      if entry.key = key then ledger.firstIngested key ⊓ entry.ingestedAt else ledger.firstIngested key := by
  rw [firstIngested, getElem?_insert]
  split
  · rw [firstIngested]
    cases ledger[key]? with
    | none => rfl
    | some existing =>
      have hMin : (if existing ≤ entry.ingestedAt then existing else entry.ingestedAt) = existing ⊓ entry.ingestedAt :=
        (min_def existing entry.ingestedAt).symm
      exact congrArg some hMin
  · rfl

theorem firstIngested_insertAll (ledger : Ledger) (entries : List LedgerEntry) (key : LedgerKey) :
    (ledger.insertAll entries).firstIngested key =
      ledger.firstIngested key ⊓ earliest (entries.map LedgerEntry.keyed) key := by
  induction entries generalizing ledger with
  | nil => exact (inf_top_eq _).symm
  | cons entry entries ih =>
    have hStep := ih (ledger.insert entry)
    rw [insertAll] at hStep ⊢
    rw [List.foldl_cons, hStep, firstIngested_insert, List.map_cons, earliest_cons, LedgerEntry.keyed]
    dsimp only
    split
    · exact inf_assoc _ _ _
    · rfl

theorem earliest_entries (ledger : Ledger) (key : LedgerKey) :
    earliest (ledger.entries.map LedgerEntry.keyed) key = ledger.firstIngested key := by
  have hAll := firstIngested_insertAll ∅ ledger.entries key
  rw [insertAll_entries, firstIngested_empty, top_inf_eq] at hAll
  exact hAll.symm

theorem firstIngested_merge (first second : Ledger) (key : LedgerKey) :
    (first.merge second).firstIngested key = first.firstIngested key ⊓ second.firstIngested key := by
  rw [merge, firstIngested_insertAll, earliest_entries]

theorem merge_comm (first second : Ledger) : first.merge second = second.merge first := by
  apply ext_firstIngested
  intro key
  rw [firstIngested_merge, firstIngested_merge, inf_comm]

theorem merge_assoc (first second third : Ledger) :
    (first.merge second).merge third = first.merge (second.merge third) := by
  apply ext_firstIngested
  intro key
  simp only [firstIngested_merge, inf_assoc]

theorem merge_self (ledger : Ledger) : ledger.merge ledger = ledger := by
  apply ext_firstIngested
  intro key
  rw [firstIngested_merge, inf_idem]

theorem insertAll_congr (ledger : Ledger) {first second : List LedgerEntry} (h : ∀ entry, entry ∈ first ↔ entry ∈ second) :
    ledger.insertAll first = ledger.insertAll second := by
  apply ext_firstIngested
  intro key
  rw [firstIngested_insertAll, firstIngested_insertAll]
  refine congrArg _ (earliest_congr (fun row => ?_) key)
  simp only [List.mem_map, h]

theorem getElem?_insertAll_iff (entries : List LedgerEntry) (key : LedgerKey) (ingestedAt : Text) :
    (insertAll ∅ entries)[key]? = some ingestedAt ↔
      IsLeast {other | ∃ entry ∈ entries, entry.key = key ∧ entry.ingestedAt = other} ingestedAt := by
  have hRows : {other | (key, other) ∈ entries.map LedgerEntry.keyed} =
      {other | ∃ entry ∈ entries, entry.key = key ∧ entry.ingestedAt = other} := by
    ext other
    simp only [Set.mem_ofPred_eq, List.mem_map, LedgerEntry.keyed, Prod.mk.injEq]
  rw [← firstIngested_eq_coe, firstIngested_insertAll, firstIngested_empty, top_inf_eq, earliest_eq_coe_iff, hRows]

theorem parse_append {first : Text} (hFirst : Text.Terminated first) (second : Text) :
    parse (first ++ second) = (parse first).merge (parse second) := by
  apply ext_firstIngested
  intro key
  rw [firstIngested_merge, parse, parse, parse, hFirst.lines_append, List.filterMap_append]
  simp only [firstIngested_insertAll, firstIngested_empty, top_inf_eq, List.map_append, earliest_append]

/-- Inserting does not depend on order or repetition, it keeps the earliest time of each key, and reading two files in
one is merging what they hold. -/
theorem merge_order_independent :
    (∀ (ledger : Ledger) (first second : List LedgerEntry), (∀ entry, entry ∈ first ↔ entry ∈ second) →
      ledger.insertAll first = ledger.insertAll second) ∧
    (∀ (entries : List LedgerEntry) (key : LedgerKey) (ingestedAt : Text),
      (insertAll ∅ entries)[key]? = some ingestedAt ↔
        IsLeast {other | ∃ entry ∈ entries, entry.key = key ∧ entry.ingestedAt = other} ingestedAt) ∧
    ∀ first second : Text, Text.Terminated first → Text.Terminated second →
      parse (first ++ second) = (parse first).merge (parse second) :=
  ⟨fun ledger _ _ h => ledger.insertAll_congr h, getElem?_insertAll_iff, fun _ second hFirst _ => parse_append hFirst second⟩

end Ledger

end Pigeon.EmailImport
