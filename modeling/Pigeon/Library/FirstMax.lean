import Mathlib

/-! # The first largest item

What a scan keeps that replaces its choice by strictly larger items only.
-/
namespace Pigeon.Library

set_option autoImplicit false

variable {α κ : Type} [LinearOrder κ]

/-- The items in front have smaller keys and those behind no larger ones. -/
structure FirstMax (key : α → κ) (items : List α) (best : α) (front behind : List α) : Prop where
  split : items = front ++ best :: behind
  front : ∀ item ∈ front, key item < key best
  behind : ∀ item ∈ behind, key item ≤ key best

variable {key : α → κ} {items front behind : List α} {best item : α}

theorem FirstMax.le (h : FirstMax key items best front behind) (hItem : item ∈ items) : key item ≤ key best := by
  rw [h.split] at hItem
  rcases List.mem_append.mp hItem with hFront | hBehind
  · exact (h.front item hFront).le
  · rcases List.mem_cons.mp hBehind with rfl | hBehind
    · exact le_refl _
    · exact h.behind item hBehind

/-- A larger item takes the place of all before it. -/
theorem FirstMax.replace (h : FirstMax key items best front behind) (hItem : key best < key item) :
    FirstMax key (items ++ [item]) item items [] where
  split := rfl
  front := fun _ hOther => (h.le hOther).trans_lt hItem
  behind := fun _ hOther => by cases hOther

theorem FirstMax.keep (h : FirstMax key items best front behind) (hItem : ¬ key best < key item) :
    FirstMax key (items ++ [item]) best front (behind ++ [item]) where
  split := by rw [h.split, List.append_assoc, List.cons_append]
  front := h.front
  behind := by
    intro other hOther
    rcases List.mem_append.mp hOther with hBehind | hLast
    · exact h.behind other hBehind
    · rw [List.mem_singleton.mp hLast]
      exact not_lt.mp hItem

theorem exists_firstMax (h : items.argmax key = some best) : ∃ front behind, FirstMax key items best front behind := by
  induction items using List.reverseRecOn generalizing best with
  | nil => cases h
  | append_singleton items item ih =>
    rw [List.argmax_concat] at h
    cases hBest : items.argmax key with
    | none =>
      rw [hBest] at h
      cases h
      rw [List.argmax_eq_none.mp hBest]
      exact ⟨[], [], rfl, by simp, by simp⟩
    | some previous =>
      rw [hBest] at h
      obtain ⟨front, behind, hPrevious⟩ := ih hBest
      dsimp only at h
      split at h
      · rename_i hLarger
        cases h
        exact ⟨items, [], hPrevious.replace hLarger⟩
      · rename_i hNoLarger
        cases h
        exact ⟨front, behind ++ [item], hPrevious.keep hNoLarger⟩

end Pigeon.Library
