import Pigeon.Transform.Convert

/-! # The course of a conversion

Which tools a converter runs and in which order, whatever they answer, and what is known when it comes to a good end.
-/
namespace Pigeon.Transform

open Library Failing

set_option autoImplicit false

/-- What was done, with what it came to. -/
abbrev Exchange := Talk.Exchange Action.Reply

theorem Converter.ensures_size_bind {α : Type} (file : Part) (f : Option Nat → Converter α)
    {post : List Exchange → Except Failure α → Prop} :
    Failing.Ensures (size file >>= f) post ↔
      ∀ reply : Except Report Nat, (f reply.toOption).Ensures fun exchanges => post (⟨.stat file, reply⟩ :: exchanges) := Iff.rfl

/-! ## Attempts -/

section Attempts

variable {α : Type} (fatal : Failure → Bool) (backoff : Nat) (attempt : List Exchange → Except Failure α → Prop)

def pause (number : Nat) : List Exchange := if number > 0 then [⟨.sleep (backoff * number), ()⟩] else []

/-- The attempts from one number on, when so many may follow it: the last succeeds, fails for good or is the last there is. -/
inductive Attempts : Nat → Nat → List Exchange → Except Failure α → Prop where
  | last {number left : Nat} {exchanges : List Exchange} {result : Except Failure α} (h : attempt exchanges result)
    (hLast : ∀ failure, result = .error failure → fatal failure = true ∨ left = 0) :
    Attempts number left (pause backoff number ++ exchanges) result
  | again {number left : Nat} {exchanges later : List Exchange} {failure : Failure} {result : Except Failure α}
    (h : attempt exchanges (.error failure)) (hAgain : fatal failure = false) (hLater : Attempts (number + 1) left later result) :
    Attempts number (left + 1) (pause backoff number ++ (exchanges ++ later)) result

variable {fatal backoff attempt}

theorem ensures_paused {f : Converter α} {number : Nat} {post : List Exchange → Except Failure α → Prop}
    (h : f.Ensures fun exchanges => post (pause backoff number ++ exchanges)) :
    Failing.Ensures (do
      if number > 0 then Converter.ask (.sleep (backoff * number))
      f) post := by
  rw [pause] at h
  split at h
  · rename_i hPause
    rw [if_pos hPause]
    exact fun _ => h
  · rename_i hFirst
    rw [if_neg hFirst]
    exact h

theorem ensures_retryFrom {f : Converter α} (h : f.Ensures attempt) (number left : Nat) :
    (retryFrom fatal backoff f number left).Ensures (Attempts fatal backoff attempt number left) := by
  induction left generalizing number with
  | zero => exact ensures_paused (h.mono fun exchanges result hAttempt => .last hAttempt fun _ _ => .inr rfl)
  | succ left ih =>
    refine ensures_paused (.tryCatch (h.mono fun exchanges result hAttempt => ?_))
    cases result with
    | ok value => exact .last hAttempt nofun
    | error failure =>
      dsimp only
      split
      · rename_i hFatal
        rw [ensures_throw, List.append_nil]
        exact .last hAttempt fun other hSame => .inl (Except.error.inj hSame ▸ hFatal)
      · rename_i hAgain
        exact (ih (number + 1)).mono fun later final hLater => .again hAttempt (Bool.eq_false_iff.mpr hAgain) hLater

end Attempts

/-! ## What is looked at in a course of actions -/

def Action.tool : Action → Option Tool
  | .run tool _ => some tool
  | .runWithin _ tool _ => some tool
  | _ => none

def Action.pause : Action → Option Nat
  | .sleep secs => some secs
  | _ => none

def toolsRun (exchanges : List Exchange) : List Tool := exchanges.filterMap (·.1.tool)

def pauses (exchanges : List Exchange) : List Nat := exchanges.filterMap (·.1.pause)

theorem toolsRun_append (exchanges later : List Exchange) : toolsRun (exchanges ++ later) = toolsRun exchanges ++ toolsRun later :=
  List.filterMap_append

theorem pauses_append (exchanges later : List Exchange) : pauses (exchanges ++ later) = pauses exchanges ++ pauses later :=
  List.filterMap_append

/-- The tools are run in this order without a pause, up to a failure; a success has run all of them. -/
structure Course {α : Type} (tools : List Tool) (good : α → List Exchange → Prop) (exchanges : List Exchange)
    (result : Except Failure α) : Prop where
  inOrder : toolsRun exchanges <+: tools
  steady : pauses exchanges = []
  complete : ∀ value, result = .ok value → toolsRun exchanges = tools
  good : ∀ value, result = .ok value → good value exchanges

namespace Course

variable {α β : Type} {tools laterTools : List Tool} {good : α → List Exchange → Prop} {exchanges : List Exchange}

theorem failed {failure : Failure} (hTools : toolsRun exchanges <+: tools) (hSteady : pauses exchanges = []) :
    Course tools good exchanges (.error failure) where
  inOrder := hTools
  steady := hSteady
  complete := nofun
  good := nofun

theorem succeeded {value : α} (hTools : toolsRun exchanges = tools) (hSteady : pauses exchanges = []) (hGood : good value exchanges) :
    Course tools good exchanges (.ok value) where
  inOrder := hTools ▸ List.prefix_rfl
  steady := hSteady
  complete _ _ := hTools
  good _ hSame := Except.ok.inj hSame ▸ hGood

theorem mono {better : α → List Exchange → Prop} {result : Except Failure α} (h : Course tools good exchanges result)
    (hBetter : ∀ value, good value exchanges → better value exchanges) : Course tools better exchanges result where
  inOrder := h.inOrder
  steady := h.steady
  complete := h.complete
  good value hValue := hBetter value (h.good value hValue)

/-- What comes after actions that have run some of the tools. -/
theorem after (earlier : List Exchange) (ran : List Tool) {f : Converter α} (hRan : toolsRun earlier = ran) (hSteady : pauses earlier = [])
    (h : f.Ensures (Course tools fun value later => good value (earlier ++ later))) :
    f.Ensures fun later => Course (ran ++ tools) good (earlier ++ later) := by
  refine h.mono fun later result hCourse => ?_
  have hTools : toolsRun (earlier ++ later) = ran ++ toolsRun later := by rw [toolsRun_append, hRan]
  constructor
  · rw [hTools]
    exact (List.prefix_append_right_inj _).mpr hCourse.inOrder
  · rw [pauses_append, hSteady, hCourse.steady]
    rfl
  · intro value hValue
    rw [hTools, hCourse.complete value hValue]
  · exact hCourse.good

theorem bind {middleGood : β → List Exchange → Prop} {f : Converter β} {g : β → Converter α}
    (hFirst : f.Ensures (Course tools middleGood))
    (hLater : ∀ middle, (g middle).Ensures
      (Course laterTools fun value later => ∀ earlier, middleGood middle earlier → good value (earlier ++ later))) :
    (f >>= g).Ensures (Course (tools ++ laterTools) good) := by
  refine .bind (hFirst.mono fun earlier result hEarlier => ?_)
  cases result with
  | error failure => exact .failed (hEarlier.inOrder.trans (List.prefix_append _ _)) hEarlier.steady
  | ok middle =>
    refine after earlier tools (hEarlier.complete middle rfl) hEarlier.steady ((hLater middle).mono fun later final hFinal => ?_)
    exact hFinal.mono fun value hValue => hValue earlier (hEarlier.good middle rfl)

theorem result {f : Converter β} {g : β → α} {middleGood : β → List Exchange → Prop} (h : f.Ensures (Course tools middleGood))
    (hGood : ∀ middle exchanges, middleGood middle exchanges → good (g middle) exchanges) :
    (f >>= fun middle => pure (g middle)).Ensures (Course tools good) := by
  rw [← List.append_nil tools]
  refine Course.bind h fun middle => .succeeded rfl rfl fun earlier hEarlier => ?_
  rw [List.append_nil]
  exact hGood middle earlier hEarlier

end Course

end Pigeon.Transform
