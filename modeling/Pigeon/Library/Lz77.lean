import Mathlib

/-! # Back references

A match copies element by element from what has been written, so that one that reaches into itself repeats its period.
-/
namespace Pigeon.Library.Lz77

set_option autoImplicit false

variable {α : Type}

/-- The first `n` elements of the endless repetition of a period. -/
def repeated (period : List α) (n : Nat) : List α := (List.range n).filterMap fun i => period[i % period.length]?

/-- The elements from `distance` before the end on, copied one by one to the end. -/
def copyBack (distance : Nat) : Nat → List α → List α
  | 0, out => out
  | n + 1, out =>
    match out[out.length - distance]? with
    | some value => copyBack distance n (out ++ [value])
    | none => out

/-- What a match of a distance and a length denotes. -/
def matched (distance length : Nat) (out : List α) : List α := repeated (out.drop (out.length - distance)) length

theorem getElem?_rotate (a : α) (rest : List α) (i : Nat) :
    (rest ++ [a])[i % (rest.length + 1)]? = (a :: rest)[(i + 1) % (rest.length + 1)]? := by
  have hLess : i % (rest.length + 1) < rest.length + 1 := Nat.mod_lt i (Nat.succ_pos _)
  obtain hInner | hLast := Nat.lt_or_eq_of_le (Nat.le_of_lt_succ hLess)
  · have hNext : (i + 1) % (rest.length + 1) = i % (rest.length + 1) + 1 := by
      rw [← Nat.mod_add_mod, Nat.mod_eq_of_lt (Nat.succ_lt_succ hInner)]
    rw [hNext, List.getElem?_cons_succ, List.getElem?_append_left hInner]
  · have hNext : (i + 1) % (rest.length + 1) = 0 := by
      rw [← Nat.mod_add_mod, hLast, Nat.mod_self]
    rw [hNext, hLast, List.getElem?_concat_length, List.getElem?_cons_zero]

/-- The repetition goes on with the period rotated. -/
theorem repeated_cons (a : α) (rest : List α) (n : Nat) :
    repeated (a :: rest) (n + 1) = a :: repeated (rest ++ [a]) n := by
  have hRotate : (fun i => (rest ++ [a])[i % (rest ++ [a]).length]?) = fun i => (a :: rest)[(i + 1) % (rest.length + 1)]? := by
    funext i
    rw [List.length_append, List.length_singleton, getElem?_rotate]
  rw [repeated, List.range_succ_eq_map, List.filterMap_cons, repeated, hRotate, List.filterMap_map]
  rfl

theorem length_repeated {period : List α} (h : period ≠ []) (n : Nat) : (repeated period n).length = n := by
  induction n generalizing period with
  | zero => rfl
  | succ n ih =>
    obtain ⟨a, rest, rfl⟩ := List.exists_cons_of_ne_nil h
    rw [repeated_cons, List.length_cons, ih (by simp)]

theorem copyBack_eq {distance : Nat} (hPositive : 0 < distance) {out : List α} (h : distance ≤ out.length) (n : Nat) :
    copyBack distance n out = out ++ matched distance n out := by
  induction n generalizing out with
  | zero => exact (List.append_nil out).symm
  | succ n ih =>
    have hStart : out.length - distance < out.length := by omega
    have hWindow : out.drop (out.length - distance) = out[out.length - distance] :: out.drop (out.length - distance + 1) :=
      List.drop_eq_getElem_cons hStart
    have hRotated (value : α) : (out ++ [value]).drop ((out ++ [value]).length - distance) =
        out.drop (out.length - distance + 1) ++ [value] := by
      have hLength : (out ++ [value]).length - distance = out.length - distance + 1 := by
        rw [List.length_append, List.length_singleton]
        omega
      rw [hLength, List.drop_append_of_le_length (by omega)]
    rw [copyBack, List.getElem?_eq_getElem hStart]
    dsimp only
    rw [ih (by rw [List.length_append]; omega), matched, matched, hRotated, hWindow, repeated_cons, List.append_assoc]
    rfl

theorem length_matched {distance : Nat} (hPositive : 0 < distance) {out : List α} (h : distance ≤ out.length) (n : Nat) :
    (matched distance n out).length = n := by
  refine length_repeated (List.ne_nil_of_length_pos ?_) n
  rw [List.length_drop]
  omega

end Pigeon.Library.Lz77
