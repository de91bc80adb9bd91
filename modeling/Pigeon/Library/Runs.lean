import Mathlib

/-! # Runs of a transition function

The step function is partial: `none` says that the event cannot happen in that state. A
schedule is a list of events, so a run is executable and an interleaving is a schedule.
-/
namespace Pigeon.Library

set_option autoImplicit false

variable {σ ε : Type*} (step : σ → ε → Option σ)

def run : σ → List ε → Option σ
  | s, [] => some s
  | s, event :: events => (step s event).bind (fun next => run next events)

/-- Every event of the schedule meets `ok` in the state it happens in. -/
def Within (ok : σ → ε → Prop) : σ → List ε → Prop
  | _, [] => True
  | s, event :: events => ok s event ∧ ∀ next, step s event = some next → Within ok next events

variable {step}

@[simp] theorem run_nil (s : σ) : run step s [] = some s := rfl

theorem run_cons (s : σ) (event : ε) (events : List ε) :
    run step s (event :: events) = (step s event).bind (fun next => run step next events) := rfl

theorem run_cons_eq_some {s t : σ} {event : ε} {events : List ε} :
    run step s (event :: events) = some t ↔
      ∃ next, step s event = some next ∧ run step next events = some t := by
  rw [run_cons, Option.bind_eq_some_iff]

theorem run_append (s : σ) (first second : List ε) :
    run step s (first ++ second) = (run step s first).bind (fun t => run step t second) := by
  induction first generalizing s with
  | nil => rfl
  | cons event events ih =>
    rw [List.cons_append, run_cons, run_cons, Option.bind_assoc]
    congr 1
    funext next
    exact ih next

theorem run_append_eq_some {s t u : σ} {first second : List ε} (hFirst : run step s first = some t)
    (hSecond : run step t second = some u) : run step s (first ++ second) = some u := by
  rw [run_append, hFirst, Option.bind_some, hSecond]

theorem Within.of_forall {ok : σ → ε → Prop} (h : ∀ s event, ok s event) (s : σ) (events : List ε) :
    Within step ok s events := by
  induction events generalizing s with
  | nil => trivial
  | cons event events ih => exact ⟨h s event, fun next _ => ih next⟩

theorem Within.of_mem {ok : ε → Prop} {events : List ε} (h : ∀ event ∈ events, ok event) (s : σ) :
    Within step (fun _ event => ok event) s events := by
  induction events generalizing s with
  | nil => trivial
  | cons event events ih =>
    exact ⟨h event List.mem_cons_self, fun next _ => ih (fun other hOther => h other (List.mem_cons_of_mem event hOther)) next⟩

theorem Within.append {ok : σ → ε → Prop} {s t : σ} {first second : List ε}
    (h : Within step ok s (first ++ second)) (hRun : run step s first = some t) :
    Within step ok s first ∧ Within step ok t second := by
  induction first generalizing s with
  | nil =>
    cases hRun
    exact ⟨trivial, h⟩
  | cons event events ih =>
    obtain ⟨next, hNext, hRest⟩ := run_cons_eq_some.mp hRun
    refine ⟨⟨h.1, fun other hOther => ?_⟩, (ih (h.2 next hNext) hRest).2⟩
    obtain rfl : next = other := Option.some.inj (hNext.symm.trans hOther)
    exact (ih (h.2 next hNext) hRest).1

/-- Two conditions that agree under an invariant hold along the same schedules. -/
theorem Within.iff_of_invariant {ok other : σ → ε → Prop} (invariant : σ → Prop)
    (agree : ∀ s event, invariant s → (ok s event ↔ other s event))
    (preserves : ∀ s event next, invariant s → ok s event → step s event = some next → invariant next)
    {s : σ} (hs : invariant s) (events : List ε) : Within step ok s events ↔ Within step other s events := by
  induction events generalizing s with
  | nil => exact Iff.rfl
  | cons event events ih =>
    constructor
    · rintro ⟨hOk, hRest⟩
      refine ⟨(agree s event hs).mp hOk, fun next hNext => ?_⟩
      exact (ih (preserves s event next hs hOk hNext)).mp (hRest next hNext)
    · rintro ⟨hOther, hRest⟩
      have hOk := (agree s event hs).mpr hOther
      refine ⟨hOk, fun next hNext => ?_⟩
      exact (ih (preserves s event next hs hOk hNext)).mpr (hRest next hNext)

/-- What every allowed step preserves holds at the end of every allowed run. -/
theorem run_invariant {ok : σ → ε → Prop} (invariant : σ → Prop)
    (preserves : ∀ s event next, invariant s → ok s event → step s event = some next → invariant next)
    {s t : σ} {events : List ε} (hOk : Within step ok s events) (hRun : run step s events = some t)
    (hs : invariant s) : invariant t := by
  induction events generalizing s with
  | nil =>
    cases hRun
    exact hs
  | cons event events ih =>
    obtain ⟨next, hNext, hRest⟩ := run_cons_eq_some.mp hRun
    exact ih (hOk.2 next hNext) hRest (preserves s event next hs hOk.1 hNext)

theorem run_preserves (invariant : σ → Prop)
    (preserves : ∀ s event next, invariant s → step s event = some next → invariant next)
    {s t : σ} {events : List ε} (hRun : run step s events = some t) (hs : invariant s) :
    invariant t :=
  run_invariant invariant (fun s event next h (_ : True) hNext => preserves s event next h hNext)
    (Within.of_forall (fun _ _ => trivial) s events) hRun hs

/-! ## Folds -/

section Folds

variable {ι β : Type*} {fold : σ → ι → σ}

/-- Some occurrence of the item meets the condition in the state it is folded into. -/
def MeetsIn (fold : σ → ι → σ) (cond : σ → ι → Prop) (s : σ) (items : List ι) (item : ι) : Prop :=
  ∃ before after, items = before ++ item :: after ∧ cond (before.foldl fold s) item

theorem meetsIn_cons {cond : σ → ι → Prop} {s : σ} {first item : ι} {items : List ι} :
    MeetsIn fold cond s (first :: items) item ↔
      item = first ∧ cond s first ∨ MeetsIn fold cond (fold s first) items item := by
  constructor
  · rintro ⟨before, after, hSplit, hCond⟩
    cases before with
    | nil =>
      obtain ⟨rfl, -⟩ := List.cons.inj hSplit
      exact .inl ⟨rfl, hCond⟩
    | cons head before =>
      obtain ⟨rfl, hRest⟩ := List.cons.inj hSplit
      exact .inr ⟨before, after, hRest, hCond⟩
  · rintro (⟨rfl, hCond⟩ | ⟨before, after, rfl, hCond⟩)
    · exact ⟨[], items, rfl, hCond⟩
    · exact ⟨first :: before, after, rfl, hCond⟩

theorem mem_foldl_iff {cond : σ → ι → Prop} (field : σ → List β) (part : ι → β)
    (h : ∀ s item x, x ∈ field (fold s item) ↔ x ∈ field s ∨ x = part item ∧ cond s item) (s : σ) (items : List ι)
    (x : β) :
    x ∈ field (items.foldl fold s) ↔ x ∈ field s ∨ ∃ item, MeetsIn fold cond s items item ∧ x = part item := by
  induction items generalizing s with
  | nil => simp [MeetsIn]
  | cons first items ih =>
    rw [List.foldl_cons, ih, h, or_assoc]
    apply or_congr_right
    constructor
    · rintro (⟨rfl, hCond⟩ | ⟨item, hMeets, rfl⟩)
      · exact ⟨first, meetsIn_cons.mpr (.inl ⟨rfl, hCond⟩), rfl⟩
      · exact ⟨item, meetsIn_cons.mpr (.inr hMeets), rfl⟩
    · rintro ⟨item, hMeets, rfl⟩
      obtain ⟨rfl, hCond⟩ | hLater := meetsIn_cons.mp hMeets
      · exact .inl ⟨rfl, hCond⟩
      · exact .inr ⟨item, hLater, rfl⟩

theorem foldl_keeps {α : Type*} (field : σ → α) (h : ∀ s item, field (fold s item) = field s) (items : List ι) (s : σ) :
    field (items.foldl fold s) = field s := by
  induction items generalizing s with
  | nil => rfl
  | cons item items ih => exact (ih _).trans (h s item)

theorem foldl_append_part {field : σ → List β} {part : ι → List β}
    (h : ∀ s item, field (fold s item) = field s ++ part item) (s : σ) (items : List ι) :
    field (items.foldl fold s) = field s ++ items.flatMap part := by
  induction items generalizing s with
  | nil => simp
  | cons item items ih => rw [List.foldl_cons, ih, h, List.append_assoc, List.flatMap_cons]

theorem foldl_add_part {M : Type*} [AddMonoid M] {field : σ → M} {part : ι → M}
    (h : ∀ s item, field (fold s item) = field s + part item) (s : σ) (items : List ι) :
    field (items.foldl fold s) = field s + (items.map part).sum := by
  induction items generalizing s with
  | nil => rw [List.foldl_nil, List.map_nil, List.sum_nil, add_zero]
  | cons item items ih => rw [List.foldl_cons, ih, h, List.map_cons, List.sum_cons, add_assoc]

end Folds

end Pigeon.Library
