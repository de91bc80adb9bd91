import Mathlib

/-! # Trimming a list

What is left of a list once the items that match are taken from both of its ends.
-/
namespace Pigeon.Library

set_option autoImplicit false

variable {α : Type} {p : α → Bool} {items : List α}

def trimMatches (p : α → Bool) (items : List α) : List α := ((items.dropWhile p).reverse.dropWhile p).reverse

theorem dropWhile_eq_self (h : ∀ c, items.head? = some c → p c = false) : items.dropWhile p = items := by
  cases items with
  | nil => rfl
  | cons c items => rw [List.dropWhile_cons, h c rfl, if_neg Bool.false_ne_true]

theorem trimMatches_eq_self (hFirst : ∀ c, items.head? = some c → p c = false)
    (hLast : ∀ c, items.getLast? = some c → p c = false) : trimMatches p items = items := by
  have hReverse : ∀ c, items.reverse.head? = some c → p c = false := by
    intro c hHead
    rw [List.head?_reverse] at hHead
    exact hLast c hHead
  rw [trimMatches, dropWhile_eq_self hFirst, dropWhile_eq_self hReverse, List.reverse_reverse]

theorem prefix_dropWhile (p : α → Bool) (items : List α) : (items.reverse.dropWhile p).reverse <+: items := by
  have hSuffix : (items.reverse.dropWhile p).reverse.reverse <:+ items.reverse := by
    rw [List.reverse_reverse]
    exact List.dropWhile_suffix p
  exact List.reverse_suffix.mp hSuffix

/-- A trimmed list is what stands between the matching ends. -/
theorem exists_trimMatches (p : α → Bool) (items : List α) :
    ∃ before after, items = before ++ trimMatches p items ++ after ∧ (∀ c ∈ before, p c) ∧ ∀ c ∈ after, p c := by
  refine ⟨items.takeWhile p, ((items.dropWhile p).reverse.takeWhile p).reverse, ?_, ?_, ?_⟩
  · rw [trimMatches, List.append_assoc, ← List.reverse_append, List.takeWhile_append_dropWhile, List.reverse_reverse,
      List.takeWhile_append_dropWhile]
  · exact fun c hc => List.mem_takeWhile_imp hc
  · exact fun c hc => List.mem_takeWhile_imp (List.mem_reverse.mp hc)

theorem mem_of_mem_trimMatches {c : α} (h : c ∈ trimMatches p items) : c ∈ items :=
  (List.dropWhile_suffix p).subset ((prefix_dropWhile p _).subset h)

theorem length_trimMatches_le (p : α → Bool) (items : List α) : (trimMatches p items).length ≤ items.length := by
  obtain ⟨before, after, hItems, -, -⟩ := exists_trimMatches p items
  have hLength := congrArg List.length hItems
  rw [List.length_append, List.length_append] at hLength
  omega

theorem head?_trimMatches {c : α} (h : (trimMatches p items).head? = some c) : p c = false := by
  obtain ⟨after, hAfter⟩ := prefix_dropWhile p (items.dropWhile p)
  change trimMatches p items ++ after = items.dropWhile p at hAfter
  have hHead : (items.dropWhile p).head? = some c := by rw [← hAfter, List.head?_append, h, Option.some_or]
  have hNot := List.head?_dropWhile_not p items
  rwa [hHead] at hNot

theorem getLast?_trimMatches {c : α} (h : (trimMatches p items).getLast? = some c) : p c = false := by
  rw [trimMatches, List.getLast?_reverse] at h
  have hNot := List.head?_dropWhile_not p (items.dropWhile p).reverse
  rwa [h] at hNot

theorem mem_trimMatches {c : α} (hMem : c ∈ items) (h : p c = false) : c ∈ trimMatches p items := by
  obtain ⟨before, after, hItems, hBefore, hAfter⟩ := exists_trimMatches p items
  rw [hItems] at hMem
  rcases List.mem_append.mp hMem with hFront | hBehind
  · rcases List.mem_append.mp hFront with hFirst | hMiddle
    · rw [hBefore c hFirst] at h
      cases h
    · exact hMiddle
  · rw [hAfter c hBehind] at h
    cases h

/-- A matching item at the end is trimmed with the rest. -/
theorem trimMatches_concat {c : α} (h : p c) (items : List α) : trimMatches p (items ++ [c]) = trimMatches p items := by
  rw [trimMatches, trimMatches, List.dropWhile_append]
  split
  · rename_i hNone
    rw [List.isEmpty_iff.mp hNone, List.dropWhile_cons, if_pos h]
    rfl
  · rw [List.reverse_append, List.reverse_singleton, List.singleton_append, List.dropWhile_cons, if_pos h]

def trimEndMatches (p : α → Bool) (items : List α) : List α := (items.reverse.dropWhile p).reverse

theorem trimEndMatches_concat {c : α} (h : p c) (items : List α) :
    trimEndMatches p (items ++ [c]) = trimEndMatches p items := by
  rw [trimEndMatches, trimEndMatches, List.reverse_append, List.reverse_singleton, List.singleton_append,
    List.dropWhile_cons, if_pos h]

end Pigeon.Library
