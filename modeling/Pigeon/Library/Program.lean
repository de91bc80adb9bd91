import Mathlib

/-! # Programs over a state that may fail

A program is run on a state, and ends with a value or an error, the state changed either way. What it ensures is said
by a condition before, one behind a value and one behind an error, and composed along the program.
-/
namespace Pigeon.Library

set_option autoImplicit false

variable {ε σ α β : Type}

/-- From every state of `pre` the program ends with `post` of its value and state, or with `fail` of its error and state. -/
def Ensures (pre : σ → Prop) (program : EStateM ε σ α) (post : α → σ → Prop) (fail : ε → σ → Prop) : Prop :=
  ∀ s, pre s →
    match program s with
    | .ok a t => post a t
    | .error e t => fail e t

namespace Ensures

variable {pre : σ → Prop} {program : EStateM ε σ α} {mid post : α → σ → Prop} {fail : ε → σ → Prop}

theorem ok (h : Ensures pre program post fail) {s t : σ} {a : α} (hPre : pre s) (hRun : program s = .ok a t) : post a t := by
  have hEnd := h s hPre
  rwa [hRun] at hEnd

theorem error (h : Ensures pre program post fail) {s t : σ} {e : ε} (hPre : pre s) (hRun : program s = .error e t) :
    fail e t := by
  have hEnd := h s hPre
  rwa [hRun] at hEnd

theorem pure {a : α} (h : ∀ s, pre s → post a s) : Ensures pre (Pure.pure a : EStateM ε σ α) post fail := h

theorem throw {e : ε} (h : ∀ s, pre s → fail e s) : Ensures pre (MonadExcept.throw e : EStateM ε σ α) post fail := h

theorem set {t : σ} {post : PUnit → σ → Prop} (h : post ⟨⟩ t) :
    Ensures pre (MonadStateOf.set t : EStateM ε σ PUnit) post fail := fun _ _ => h

theorem bind {next : α → EStateM ε σ β} {last : β → σ → Prop} (h : Ensures pre program mid fail)
    (hNext : ∀ a, Ensures (mid a) (next a) last fail) : Ensures pre (program >>= next) last fail := by
  intro s hPre
  have hFirst := h s hPre
  change match EStateM.bind program next s with
    | .ok b t => last b t
    | .error e t => fail e t
  rw [EStateM.bind]
  cases hRun : program s with
  | ok a t =>
    rw [hRun] at hFirst
    exact hNext a t hFirst
  | error e t =>
    rw [hRun] at hFirst
    exact hFirst

/-- Reading the state fixes it for what follows. -/
theorem get_bind {next : σ → EStateM ε σ β} {last : β → σ → Prop} (h : ∀ s, pre s → Ensures (· = s) (next s) last fail) :
    Ensures pre (MonadState.get >>= next) last fail := fun s hPre => h s hPre s rfl

theorem ite {condition : Prop} [Decidable condition] {other : EStateM ε σ α} (h : condition → Ensures pre program post fail)
    (hOther : ¬ condition → Ensures pre other post fail) :
    Ensures pre (if condition then program else other) post fail := by
  split
  · exact h ‹_›
  · exact hOther ‹_›

theorem strengthen {weaker : σ → Prop} (h : Ensures weaker program post fail) (hPre : ∀ s, pre s → weaker s) :
    Ensures pre program post fail := fun s hS => h s (hPre s hS)

theorem weaken (h : Ensures pre program mid fail) (hPost : ∀ a s, mid a s → post a s) : Ensures pre program post fail := by
  intro s hPre
  cases hRun : program s with
  | ok a t => exact hPost a t (h.ok hPre hRun)
  | error e t => exact h.error hPre hRun

/-- A fact about the value before is taken out of the condition. -/
theorem assume {fact : Prop} (h : fact → Ensures pre program post fail) :
    Ensures (fun s => fact ∧ pre s) program post fail := fun s hS => h hS.1 s hS.2

end Ensures

/-! ## Runs that end with a value -/

theorem run_bind_ok {program : EStateM ε σ α} {s t : σ} {a : α} (h : program s = .ok a t) (next : α → EStateM ε σ β) :
    (program >>= next) s = next a t := by
  change EStateM.bind program next s = next a t
  rw [EStateM.bind, h]

theorem run_get_bind (next : σ → EStateM ε σ β) (s : σ) : (MonadState.get >>= next) s = next s s := rfl

theorem run_set_bind (t : σ) (next : PUnit → EStateM ε σ β) (s : σ) : (MonadStateOf.set t >>= next) s = next ⟨⟩ t := rfl

end Pigeon.Library
