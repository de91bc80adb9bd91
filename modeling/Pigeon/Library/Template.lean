import Pigeon.Library.Text

/-! # Texts with holes, and what a search in a filled one finds

What fills a hole is sealed against a pattern when it begins and ends with characters the pattern does not have. The
pattern is then found in the fixed text between two holes or within what fills one, and nowhere else.
-/
namespace Pigeon.Library.Template

set_option autoImplicit false

inductive Segment (η : Type*) where
  | fixed (s : Text)
  | hole (h : η)
deriving DecidableEq

variable {η : Type*} (value : η → Text)

def Segment.fill : Segment η → Text
  | .fixed s => s
  | .hole h => value h

def fill (segments : List (Segment η)) : Text := segments.flatMap (Segment.fill value)

def holes : List (Segment η) → List η
  | [] => []
  | .fixed _ :: segments => holes segments
  | .hole h :: segments => h :: holes segments

/-- The fixed texts between the holes, the first of which has begun. -/
def runsFrom (run : Text) : List (Segment η) → List Text
  | [] => [run]
  | .fixed s :: segments => runsFrom (run ++ s) segments
  | .hole _ :: segments => run :: runsFrom [] segments

def runs (segments : List (Segment η)) : List Text := runsFrom [] segments

structure Sealed (pattern s : Text) : Prop where
  nonempty : s ≠ []
  first : ∀ c, s.head? = some c → c ∉ pattern
  last : ∀ c, s.getLast? = some c → c ∉ pattern

theorem infix_append_of_head {pattern before after : Text} (h : ∀ c, after.head? = some c → c ∉ pattern) :
    pattern <:+: before ++ after ↔ pattern <:+: before ∨ pattern <:+: after := by
  constructor
  · intro hFound
    obtain hBefore | hAfter | ⟨front, back, rfl, hFront, hBack⟩ := List.infix_append_iff.mp hFound
    · exact .inl hBefore
    · exact .inr hAfter
    · cases back with
      | nil =>
        rw [List.append_nil]
        exact .inl hFront.isInfix
      | cons c back =>
        obtain ⟨rest, rfl⟩ := hBack
        exact absurd (by simp) (h c rfl)
  · rintro (hBefore | hAfter)
    · exact List.infix_append_of_infix_left hBefore
    · exact List.infix_append_of_infix_right hAfter

theorem infix_append_of_last {pattern before after : Text} (h : ∀ c, before.getLast? = some c → c ∉ pattern) :
    pattern <:+: before ++ after ↔ pattern <:+: before ∨ pattern <:+: after := by
  have hReverse : pattern.reverse <:+: after.reverse ++ before.reverse ↔
      pattern.reverse <:+: after.reverse ∨ pattern.reverse <:+: before.reverse := by
    apply infix_append_of_head
    intro c hHead
    rw [List.mem_reverse]
    rw [List.head?_reverse] at hHead
    exact h c hHead
  rw [← List.reverse_append, List.reverse_infix, List.reverse_infix, List.reverse_infix] at hReverse
  rw [hReverse, or_comm]

theorem infix_sealed_iff {pattern before s after : Text} (h : Sealed pattern s) :
    pattern <:+: before ++ (s ++ after) ↔ pattern <:+: before ∨ pattern <:+: s ∨ pattern <:+: after := by
  rw [infix_append_of_head, infix_append_of_last h.last]
  intro c hHead
  rw [List.head?_append_of_ne_nil _ h.nonempty] at hHead
  exact h.first c hHead

variable {value}

theorem infix_fillFrom_iff {pattern : Text} (run : Text) (segments : List (Segment η))
    (h : ∀ hole ∈ holes segments, Sealed pattern (value hole)) :
    pattern <:+: run ++ fill value segments ↔
      (∃ text ∈ runsFrom run segments, pattern <:+: text) ∨ ∃ hole ∈ holes segments, pattern <:+: value hole := by
  induction segments generalizing run with
  | nil => simp [fill, runsFrom, holes]
  | cons segment segments ih =>
    cases segment with
    | fixed s =>
      have hRest := ih (run ++ s) h
      rw [List.append_assoc] at hRest
      exact hRest
    | hole hole =>
      have hHole : Sealed pattern (value hole) := h hole List.mem_cons_self
      have hRest := ih [] fun other hMem => h other (List.mem_cons_of_mem _ hMem)
      rw [List.nil_append] at hRest
      have hFill : fill value (.hole hole :: segments) = value hole ++ fill value segments := rfl
      have hRuns : runsFrom run (.hole hole :: segments) = run :: runsFrom [] segments := rfl
      have hHoles : holes (.hole hole :: segments) = hole :: holes segments := rfl
      rw [hFill, infix_sealed_iff hHole, hRest, hRuns, hHoles, List.exists_mem_cons_iff, List.exists_mem_cons_iff,
        ← or_assoc, or_or_or_comm]

/-- Where all holes are sealed, a pattern is found in a run of fixed text or in a hole. -/
theorem infix_fill_iff {pattern : Text} {segments : List (Segment η)}
    (h : ∀ hole ∈ holes segments, Sealed pattern (value hole)) :
    pattern <:+: fill value segments ↔
      (∃ text ∈ runs segments, pattern <:+: text) ∨ ∃ hole ∈ holes segments, pattern <:+: value hole :=
  infix_fillFrom_iff [] segments h

theorem infix_fill_of_runsFrom (run : Text) {text : Text} {segments : List (Segment η)} (h : text ∈ runsFrom run segments) :
    text <:+: run ++ fill value segments := by
  induction segments generalizing run with
  | nil =>
    obtain rfl := List.mem_singleton.mp h
    exact List.infix_append_left
  | cons segment segments ih =>
    cases segment with
    | fixed s =>
      have hRest := ih (run ++ s) h
      rw [List.append_assoc] at hRest
      exact hRest
    | hole hole =>
      obtain rfl | hLater := List.mem_cons.mp h
      · exact List.infix_append_left
      · have hRest : text <:+: fill value segments := ih [] hLater
        exact List.infix_append_of_infix_right (List.infix_append_of_infix_right hRest)

theorem infix_fill_of_runs {text : Text} {segments : List (Segment η)} (h : text ∈ runs segments) :
    text <:+: fill value segments :=
  infix_fill_of_runsFrom [] h

theorem infix_fill_of_holes {hole : η} {segments : List (Segment η)} (h : hole ∈ holes segments) :
    value hole <:+: fill value segments := by
  induction segments with
  | nil => contradiction
  | cons segment segments ih =>
    cases segment with
    | fixed s => exact List.infix_append_of_infix_right (ih h)
    | hole other =>
      obtain rfl | hLater := List.mem_cons.mp h
      · exact List.infix_append_left
      · exact List.infix_append_of_infix_right (ih hLater)

theorem fill_append (segments more : List (Segment η)) :
    fill value (segments ++ more) = fill value segments ++ fill value more := List.flatMap_append

end Pigeon.Library.Template
