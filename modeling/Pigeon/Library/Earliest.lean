import Mathlib

/-! # The earliest value of each key

Rows of a key and a value, of which the least value counts for each key and none for a key without rows. What is least
does not depend on the order of the rows or on how often one is there.
-/
namespace Pigeon.Library

set_option autoImplicit false

variable {κ τ : Type*} [DecidableEq κ] [LinearOrder τ]

def earliest (rows : List (κ × τ)) (key : κ) : WithTop τ :=
  ((rows.filter fun row => row.1 = key).map fun row => (row.2 : WithTop τ)).foldr (· ⊓ ·) ⊤

@[simp]
theorem earliest_nil (key : κ) : earliest ([] : List (κ × τ)) key = ⊤ := rfl

theorem earliest_cons (row : κ × τ) (rows : List (κ × τ)) (key : κ) :
    earliest (row :: rows) key = if row.1 = key then ↑row.2 ⊓ earliest rows key else earliest rows key := by
  rw [earliest, List.filter_cons]
  split
  · rename_i hKey
    rw [if_pos (of_decide_eq_true hKey)]
    rfl
  · rename_i hKey
    rw [if_neg (by simpa using hKey)]
    rfl

theorem le_earliest_iff {rows : List (κ × τ)} {key : κ} {bound : WithTop τ} :
    bound ≤ earliest rows key ↔ ∀ value, (key, value) ∈ rows → bound ≤ value := by
  induction rows with
  | nil => simp
  | cons row rows ih =>
    obtain ⟨other, first⟩ := row
    rw [earliest_cons]
    split
    · rename_i hKey
      obtain rfl : other = key := hKey
      simp [ih]
    · rename_i hKey
      have hNe : key ≠ other := fun hEq => hKey hEq.symm
      simp [ih, hNe]

/-- Only which rows there are matters. -/
theorem earliest_congr {rows others : List (κ × τ)} (h : ∀ row, row ∈ rows ↔ row ∈ others) (key : κ) :
    earliest rows key = earliest others key := by
  apply eq_of_forall_le_iff
  intro bound
  simp only [le_earliest_iff, h]

theorem earliest_append (rows others : List (κ × τ)) (key : κ) :
    earliest (rows ++ others) key = earliest rows key ⊓ earliest others key := by
  apply eq_of_forall_le_iff
  intro bound
  simp only [le_inf_iff, le_earliest_iff, List.mem_append, or_imp, forall_and]

/-- The least value is the value of a row. -/
theorem mem_of_earliest {rows : List (κ × τ)} {key : κ} {value : τ} (h : earliest rows key = value) :
    (key, value) ∈ rows := by
  induction rows with
  | nil => exact absurd h WithTop.top_ne_coe
  | cons row rows ih =>
    obtain ⟨other, first⟩ := row
    rw [earliest_cons] at h
    split at h
    · rename_i hKey
      obtain rfl : other = key := hKey
      obtain hFirst | hRest := min_choice (↑first) (earliest rows other)
      · rw [← WithTop.coe_inj.mp (hFirst.symm.trans h)]
        exact List.mem_cons_self
      · exact List.mem_cons_of_mem _ (ih (hRest.symm.trans h))
    · exact List.mem_cons_of_mem _ (ih h)

theorem earliest_eq_coe_iff {rows : List (κ × τ)} {key : κ} {value : τ} :
    earliest rows key = value ↔ IsLeast {other | (key, other) ∈ rows} value := by
  constructor
  · intro h
    refine ⟨mem_of_earliest h, fun other hOther => ?_⟩
    exact WithTop.coe_le_coe.mp (le_earliest_iff.mp h.ge other hOther)
  · rintro ⟨hMem, hLeast⟩
    refine le_antisymm (le_earliest_iff.mp le_rfl value hMem) (le_earliest_iff.mpr ?_)
    intro other hOther
    exact WithTop.coe_le_coe.mpr (hLeast hOther)

end Pigeon.Library
