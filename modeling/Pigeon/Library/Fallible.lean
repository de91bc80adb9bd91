import Mathlib.Data.List.Basic

/-! # Computations that can fail

A sequence of steps succeeds if and only if each of them does.
-/
namespace Pigeon.Library.Fallible

set_option autoImplicit false

variable {ε α β : Type}

theorem bind_eq_ok {first : Except ε α} {rest : α → Except ε β} {b : β} (h : (first >>= rest) = .ok b) :
    ∃ a, first = .ok a ∧ rest a = .ok b := by
  cases first with
  | error err => cases h
  | ok a => exact ⟨a, rfl, h⟩

/-- Every result of a traversal is that of one of the items. -/
theorem exists_of_mem_mapM {f : α → Except ε β} {items : List α} {results : List β} (h : items.mapM f = .ok results)
    {result : β} (hMem : result ∈ results) : ∃ item ∈ items, f item = .ok result := by
  induction items generalizing results with
  | nil =>
    cases h
    cases hMem
  | cons item items ih =>
    rw [List.mapM_cons] at h
    obtain ⟨first, hFirst, hRest⟩ := bind_eq_ok h
    obtain ⟨later, hLater, hDone⟩ := bind_eq_ok hRest
    cases hDone
    obtain rfl | hMem := List.mem_cons.mp hMem
    · exact ⟨item, List.mem_cons_self, hFirst⟩
    · obtain ⟨other, hOther, hResult⟩ := ih hLater hMem
      exact ⟨other, List.mem_cons_of_mem _ hOther, hResult⟩

end Pigeon.Library.Fallible
