import Mathlib

/-! # Checked code

Code that ends early where a machine word would overflow or a range would leave its slice.
-/
namespace Pigeon.Library

set_option autoImplicit false

variable {α β : Type}

/-- How checked code ends without a value: `panic` is an overflow or an index out of range, and `exhausted` a loop that
the model has cut off. -/
inductive Halt where
  | error (message : String)
  | panic
  | exhausted
deriving DecidableEq, Repr

def wordSize : Nat := 2 ^ 64

def word (value : Nat) : Except Halt Nat := if value < wordSize then .ok value else .error .panic

def minus (left right : Nat) : Except Halt Nat := if right ≤ left then .ok (left - right) else .error .panic

/-- What one slice can hold. -/
abbrev Slice (α : Type) : Type := {items : List α // items.length < 2 ^ 63}

/-- `items[start..stop]` -/
def slice (items : List α) (start stop : Nat) : Except Halt (List α) :=
  if start ≤ stop ∧ stop ≤ items.length then .ok ((items.take stop).drop start) else .error .panic

def overwrite (items : List α) (start : Nat) (piece : List α) : List α :=
  items.take start ++ piece ++ items.drop (start + piece.length)

/-- `items[start..stop].copy_from_slice(piece)` -/
def copyFromSlice (items : List α) (start stop : Nat) (piece : List α) : Except Halt (List α) :=
  if start ≤ stop ∧ stop ≤ items.length ∧ stop - start = piece.length then .ok (overwrite items start piece)
  else .error .panic

theorem bind_of_ok {outcome : Except Halt α} {value : α} (h : outcome = .ok value) (next : α → Except Halt β) :
    outcome >>= next = next value := by
  rw [h]
  rfl

/-- The outcome is a value that `post` holds of, or an error of the code's own. -/
def Yields (outcome : Except Halt α) (post : α → Prop) : Prop :=
  match outcome with
  | .ok value => post value
  | .error e => ∃ message, e = .error message

namespace Yields

variable {outcome : Except Halt α} {post mid : α → Prop}

theorem error (h : Yields outcome post) {e : Halt} (hError : outcome = .error e) : ∃ message, e = .error message := by
  rwa [hError] at h

theorem imp {other : α → Prop} (h : Yields outcome post) (hPost : ∀ value, post value → other value) :
    Yields outcome other := by
  cases outcome with
  | ok value => exact hPost value h
  | error e => exact h

theorem bind {next : α → Except Halt β} {last : β → Prop} (h : Yields outcome mid)
    (hNext : ∀ value, mid value → Yields (next value) last) : Yields (outcome >>= next) last := by
  cases outcome with
  | ok value => exact hNext value h
  | error e => exact h

theorem ite {condition : Prop} [Decidable condition] {other : Except Halt α} (h : condition → Yields outcome post)
    (hOther : ¬ condition → Yields other post) : Yields (if condition then outcome else other) post := by
  split
  · exact h ‹_›
  · exact hOther ‹_›

/-- What each step of a loop keeps, the loop keeps. -/
theorem foldlM {step : α → β → Except Halt α} {items : List β}
    (hStep : ∀ value item, item ∈ items → mid value → Yields (step value item) mid) {value : α} (hValue : mid value) :
    Yields (items.foldlM step value) mid := by
  induction items generalizing value with
  | nil => exact hValue
  | cons item items ih =>
    rw [List.foldlM_cons]
    refine .bind (hStep value item List.mem_cons_self hValue) fun next hNext => ?_
    exact ih (fun other item hItem => hStep other item (List.mem_cons_of_mem _ hItem)) hNext

end Yields

theorem word_ok {value : Nat} (h : value < wordSize) : word value = .ok value := if_pos h

theorem minus_ok {left right : Nat} (h : right ≤ left) : minus left right = .ok (left - right) := if_pos h

/-- A loop over a range reaches its end where each step leads from one stage to the next. -/
theorem foldlM_range (stage : Nat → α → Prop) {step : α → Nat → Except Halt α} {n : Nat}
    (hStep : ∀ i < n, ∀ value, stage i value → ∃ next, step value i = .ok next ∧ stage (i + 1) next) {value : α}
    (hValue : stage 0 value) : ∃ last, (List.range n).foldlM step value = .ok last ∧ stage n last := by
  induction n with
  | zero => exact ⟨value, rfl, hValue⟩
  | succ n ih =>
    obtain ⟨mid, hMid, hStage⟩ := ih fun i hi => hStep i (Nat.lt_succ_of_lt hi)
    obtain ⟨last, hLast, hDone⟩ := hStep n (Nat.lt_succ_self n) mid hStage
    refine ⟨last, ?_, hDone⟩
    rw [List.range_succ, List.foldlM_append, bind_of_ok hMid, List.foldlM_cons, bind_of_ok hLast]
    rfl

theorem slice_ok {items : List α} {start stop : Nat} (hStart : start ≤ stop) (hStop : stop ≤ items.length) :
    slice items start stop = .ok ((items.take stop).drop start) := if_pos ⟨hStart, hStop⟩

/-- A slice is the part of its place in a split. -/
theorem slice_append {items before part after : List α} {start stop : Nat} (hItems : items = before ++ part ++ after)
    (hStart : start = before.length) (hStop : stop = start + part.length) : slice items start stop = .ok part := by
  rw [slice_ok (by omega) (by rw [hItems, hStop, hStart, List.length_append, List.length_append]; omega)]
  have hTake : items.take stop = before ++ part := by
    rw [hItems]
    exact List.take_left' (by rw [List.length_append, hStop, hStart])
  rw [hTake, List.drop_left' hStart.symm]

theorem length_overwrite {items piece : List α} {start : Nat} (h : start + piece.length ≤ items.length) :
    (overwrite items start piece).length = items.length := by
  rw [overwrite, List.length_append, List.length_append, List.length_take, List.length_drop]
  omega

theorem getElem?_overwrite {items piece : List α} {start : Nat} (h : start + piece.length ≤ items.length) (i : Nat) :
    (overwrite items start piece)[i]? =
      if start ≤ i ∧ i < start + piece.length then piece[i - start]? else items[i]? := by
  have hTake : (items.take start).length = start := List.length_take_of_le (by omega)
  rw [overwrite, List.append_assoc]
  split
  · rename_i hInside
    rw [List.getElem?_append_right (by omega), hTake, List.getElem?_append_left (by omega)]
  · rename_i hOutside
    rcases Nat.lt_or_ge i start with hBefore | hBehind
    · rw [List.getElem?_append_left (by omega), List.getElem?_take_of_lt hBefore]
    · rw [List.getElem?_append_right (by omega), hTake, List.getElem?_append_right (by omega), List.getElem?_drop]
      congr 1
      omega

theorem overwrite_append_left {before piece : List α} {start : Nat} (h : start + piece.length ≤ before.length)
    (after : List α) : overwrite (before ++ after) start piece = overwrite before start piece ++ after := by
  rw [overwrite, overwrite, List.take_append_of_le_length (by omega), List.drop_append_of_le_length h, List.append_assoc,
    List.append_assoc, List.append_assoc]

theorem overwrite_append_right (before after piece : List α) :
    overwrite (before ++ after) before.length piece = before ++ overwrite after 0 piece := by
  rw [overwrite, overwrite, List.take_left, ← List.drop_drop, List.drop_left, List.take_zero, Nat.zero_add, List.nil_append,
    List.append_assoc]

theorem copyFromSlice_ok {items piece : List α} {start stop : Nat} (hStop : stop = start + piece.length)
    (hItems : stop ≤ items.length) : copyFromSlice items start stop piece = .ok (overwrite items start piece) :=
  if_pos ⟨by omega, hItems, by omega⟩

end Pigeon.Library
