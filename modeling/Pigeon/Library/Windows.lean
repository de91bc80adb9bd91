import Mathlib

/-! # Windows of time

A window is asked for at some time and begins when the one before it is over, or at once if that has happened. What
windows that follow one another can hold between two of their starts is bounded by the time in between.
-/
namespace Pigeon.Library

set_option autoImplicit false

structure Window (τ : Type*) where
  asked : τ
  start : τ
  length : τ

namespace Window

section Place

variable {τ : Type*} [AddCommMonoid τ] [LinearOrder τ]

def finish (w : Window τ) : τ := w.start + w.length

/-- Each window is over when a later one begins. -/
def InOrder (windows : List (Window τ)) : Prop := windows.Pairwise fun w later => w.finish ≤ later.start

/-- A request is the time at which it is made and the length it asks for. -/
def placeAll : τ → List (τ × τ) → List (Window τ)
  | _, [] => []
  | free, (now, length) :: requests => ⟨now, max free now, length⟩ :: placeAll (max free now + length) requests

theorem start_of_placeAll_cons {free : τ} {requests : List (τ × τ)} {w : Window τ} {later : List (Window τ)}
    (h : placeAll free requests = w :: later) : w.start = max free w.asked := by
  cases requests with
  | nil => cases h
  | cons request requests =>
    obtain ⟨rfl, -⟩ := List.cons.inj h
    rfl

/-- A window begins where the one before it ends, or when it is asked for if that is later. -/
theorem start_of_placeAll {free : τ} {requests : List (τ × τ)} {earlier later : List (Window τ)} {w next : Window τ}
    (h : placeAll free requests = earlier ++ w :: next :: later) : next.start = max w.finish next.asked := by
  induction requests generalizing free earlier with
  | nil => simp [placeAll] at h
  | cons request requests ih =>
    cases earlier with
    | nil =>
      obtain ⟨rfl, hRest⟩ := List.cons.inj h
      exact start_of_placeAll_cons hRest
    | cons first earlier => exact ih (List.cons.inj h).2

theorem asked_le_start {free : τ} {requests : List (τ × τ)} {w : Window τ} (h : w ∈ placeAll free requests) :
    w.asked ≤ w.start := by
  induction requests generalizing free with
  | nil => cases h
  | cons request requests ih =>
    obtain rfl | hRest := List.mem_cons.mp h
    · exact le_max_right free _
    · exact ih hRest

/-- What comes before the last start fits in front of it. -/
theorem InOrder.start_add_sum_le [IsOrderedAddMonoid τ] {first : Window τ} {rest : List (Window τ)}
    (h : InOrder (first :: rest)) :
    first.start + ((first :: rest).dropLast.map (·.length)).sum ≤
      ((first :: rest).getLast (List.cons_ne_nil first rest)).start := by
  induction rest generalizing first with
  | nil => simp
  | cons next rest ih =>
    obtain ⟨hFirst, hRest⟩ := List.pairwise_cons.mp h
    have hNext : first.start + first.length ≤ next.start := hFirst next List.mem_cons_self
    rw [List.dropLast_cons_cons, List.map_cons, List.sum_cons, List.getLast_cons_cons, ← add_assoc]
    exact (add_le_add_left hNext _).trans (ih hRest)

end Place

variable {τ : Type*} [AddCommMonoid τ] [LinearOrder τ] [CanonicallyOrderedAdd τ]

theorem le_start_of_placeAll {free : τ} {requests : List (τ × τ)} {w : Window τ} (h : w ∈ placeAll free requests) :
    free ≤ w.start := by
  induction requests generalizing free with
  | nil => cases h
  | cons request requests ih =>
    obtain rfl | hRest := List.mem_cons.mp h
    · exact le_max_left free _
    · exact (le_max_left free _).trans (le_self_add.trans (ih hRest))

theorem placeAll_inOrder (free : τ) (requests : List (τ × τ)) : InOrder (placeAll free requests) := by
  induction requests generalizing free with
  | nil => exact List.Pairwise.nil
  | cons request requests ih =>
    exact List.pairwise_cons.mpr ⟨fun w hWindow => le_start_of_placeAll hWindow, ih _⟩

end Window

end Pigeon.Library
