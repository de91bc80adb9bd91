import Mathlib

/-! # Permits of counting semaphores

Every member of a pool holds at most one permit, each of one of the semaphores.
-/
namespace Pigeon.Library

set_option autoImplicit false

variable {ι κ : Type*} [Fintype ι] [DecidableEq κ] {permit : ι → Option κ} {key : κ}

def holders (permit : ι → Option κ) (key : κ) : Nat := (Finset.univ.filter fun i => permit i = some key).card

/-- No semaphore has given out more permits than it has. -/
def Bounded (capacity : κ → Nat) (permit : ι → Option κ) : Prop := ∀ key, holders permit key ≤ capacity key

theorem holders_none (key : κ) : holders (fun _ : ι => (none : Option κ)) key = 0 := by
  rw [holders, Finset.card_eq_zero, Finset.filter_eq_empty_iff]
  intro i _ hHolds
  cases hHolds

theorem holders_release_le [DecidableEq ι] (permit : ι → Option κ) (i : ι) (key : κ) :
    holders (Function.update permit i none) key ≤ holders permit key := by
  apply Finset.card_le_card
  intro j hj
  rw [Finset.mem_filter] at hj ⊢
  obtain rfl | hOther := eq_or_ne j i
  · rw [Function.update_self] at hj
    cases hj.2
  · rw [Function.update_of_ne hOther] at hj
    exact hj

theorem holders_acquire_le [DecidableEq ι] (permit : ι → Option κ) (i : ι) (key other : κ) :
    holders (Function.update permit i (some key)) other ≤ holders permit other + if other = key then 1 else 0 := by
  have hSubset : (Finset.univ.filter fun j => Function.update permit i (some key) j = some other) ⊆
      (Finset.univ.filter fun j => permit j = some other) ∪ (if other = key then {i} else ∅) := by
    intro j hj
    rw [Finset.mem_filter] at hj
    rw [Finset.mem_union, Finset.mem_filter]
    obtain rfl | hOther := eq_or_ne j i
    · rw [Function.update_self] at hj
      rw [if_pos (Option.some.inj hj.2).symm]
      exact .inr (Finset.mem_singleton_self j)
    · rw [Function.update_of_ne hOther] at hj
      exact .inl hj
  refine (Finset.card_le_card hSubset).trans ((Finset.card_union_le _ _).trans (Nat.add_le_add_left ?_ _))
  split <;> simp

theorem bounded_none (capacity : κ → Nat) : Bounded capacity fun _ : ι => none := fun key => by
  rw [holders_none]
  exact Nat.zero_le _

theorem Bounded.release [DecidableEq ι] {capacity : κ → Nat} (h : Bounded capacity permit) (i : ι) :
    Bounded capacity (Function.update permit i none) := fun key => (holders_release_le permit i key).trans (h key)

theorem Bounded.acquire [DecidableEq ι] {capacity : κ → Nat} (h : Bounded capacity permit) (i : ι) (hFree : holders permit key < capacity key) :
    Bounded capacity (Function.update permit i (some key)) := by
  intro other
  refine (holders_acquire_le permit i key other).trans ?_
  split
  · rename_i hSame
    rw [hSame]
    omega
  · exact h other

/-- A semaphore with no permit left has somebody who holds one. -/
theorem exists_holder {capacity : κ → Nat} (hCapacity : 0 < capacity key) (hFull : ¬ holders permit key < capacity key) :
    ∃ i, permit i = some key := by
  have hHolders : 0 < holders permit key := by omega
  obtain ⟨i, hi⟩ := Finset.card_pos.mp hHolders
  exact ⟨i, (Finset.mem_filter.mp hi).2⟩

end Pigeon.Library
