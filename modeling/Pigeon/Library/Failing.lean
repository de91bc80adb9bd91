import Pigeon.Library.Talk

/-! # Talks that may fail

A failure ends a talk, with what was exchanged before it. What holds of every course, and what is only said behind an opening, is
found step by step.
-/
namespace Pigeon.Library

set_option autoImplicit false

abbrev Failing (α : Type) (β : α → Type) (ε ρ : Type) := ExceptT ε (Talk α β) ρ

namespace Failing

variable {α : Type} {β : α → Type} {ε δ ρ τ : Type}

def ask (out : α) : Failing α β ε (β out) := ExceptT.mk (.ask out fun reply => .done (.ok reply))

def orFail (failure : δ → ε) : Except δ ρ → Failing α β ε ρ
  | .ok value => pure value
  | .error err => throw (failure err)

/-! ## What holds of every course -/

def Ensures (f : Failing α β ε ρ) (post : List (Talk.Exchange β) → Except ε ρ → Prop) : Prop := Talk.Ensures f.run post

section Ensures

variable {post : List (Talk.Exchange β) → Except ε ρ → Prop}

theorem ensures_throw (failure : ε) : Ensures (throw failure : Failing α β ε ρ) post ↔ post [] (.error failure) := Iff.rfl

theorem ensures_throw_bind (failure : ε) (f : τ → Failing α β ε ρ) : Ensures (throw failure >>= f) post ↔ post [] (.error failure) :=
  Iff.rfl

theorem ensures_ask_bind (out : α) (f : β out → Failing α β ε ρ) :
    Ensures (ask out >>= f) post ↔ ∀ reply, Ensures (f reply) fun exchanges => post (⟨out, reply⟩ :: exchanges) := Iff.rfl

theorem forall_outcome {x : Except δ τ} {onOk : τ → Prop} {onError : δ → Prop} :
    (match x with
      | .ok value => onOk value
      | .error err => onError err) ↔ (∀ value, x = .ok value → onOk value) ∧ ∀ err, x = .error err → onError err := by
  cases x with
  | ok value => simp
  | error err => simp

theorem ensures_orFail (failure : δ → ε) (x : Except δ ρ) :
    Ensures (orFail failure x : Failing α β ε ρ) post ↔
      (∀ value, x = .ok value → post [] (.ok value)) ∧ ∀ err, x = .error err → post [] (.error (failure err)) := by
  rw [← forall_outcome]
  cases x with
  | ok value => exact Iff.rfl
  | error err => exact Iff.rfl

theorem ensures_orFail_bind (failure : δ → ε) (x : Except δ τ) (f : τ → Failing α β ε ρ) :
    Ensures (orFail failure x >>= f) post ↔
      (∀ value, x = .ok value → Ensures (f value) post) ∧ ∀ err, x = .error err → post [] (.error (failure err)) := by
  rw [← forall_outcome]
  cases x with
  | ok value => exact Iff.rfl
  | error err => exact Iff.rfl

theorem ensures_unless {p : Prop} [Decidable p] (failure : ε) (f : Unit → Failing α β ε ρ) :
    Ensures (if p then throw failure >>= f else f ()) post ↔ (p → post [] (.error failure)) ∧ (¬ p → Ensures (f ()) post) := by
  split
  · rename_i h
    rw [ensures_throw_bind]
    exact ⟨fun hPost => ⟨fun _ => hPost, absurd h⟩, fun hPost => hPost.1 h⟩
  · rename_i h
    exact ⟨fun hPost => ⟨fun h' => absurd h' h, fun _ => hPost⟩, fun hPost => hPost.2 h⟩

theorem Ensures.mono {f : Failing α β ε ρ} {weaker : List (Talk.Exchange β) → Except ε ρ → Prop} (h : Ensures f post)
    (hWeaker : ∀ exchanges result, post exchanges result → weaker exchanges result) : Ensures f weaker :=
  Talk.Ensures.mono h hWeaker

theorem Ensures.bind {f : Failing α β ε τ} {g : τ → Failing α β ε ρ}
    (h : Ensures f fun exchanges result =>
      match result with
      | .ok value => Ensures (g value) fun later => post (exchanges ++ later)
      | .error failure => post exchanges (.error failure)) : Ensures (f >>= g) post := by
  refine Talk.Ensures.bind (Talk.Ensures.mono h fun exchanges result hResult => ?_)
  cases result with
  | ok value => exact hResult
  | error failure =>
    show post (exchanges ++ []) (.error failure)
    rwa [List.append_nil]

theorem Ensures.tryCatch {f : Failing α β ε ρ} {handler : ε → Failing α β ε ρ}
    (h : Ensures f fun exchanges result =>
      match result with
      | .ok value => post exchanges (.ok value)
      | .error failure => Ensures (handler failure) fun later => post (exchanges ++ later)) :
    Ensures (tryCatch f handler) post := by
  refine Talk.Ensures.bind (Talk.Ensures.mono h fun exchanges result hResult => ?_)
  cases result with
  | ok value =>
    show post (exchanges ++ []) (.ok value)
    rwa [List.append_nil]
  | error failure => exact hResult

end Ensures

/-! ## What is only said behind an opening -/

def Guarded (opens : Talk.Exchange β → Prop) (guarded : α → Prop) (f : Failing α β ε ρ) : Prop := Talk.Guarded opens guarded f.run

section Guarded

variable {opens : Talk.Exchange β → Prop} {guarded : α → Prop}

theorem guarded_ask_bind {out : α} {f : β out → Failing α β ε ρ} (hFree : ¬ guarded out)
    (h : ∀ reply, ¬ opens ⟨out, reply⟩ → Guarded opens guarded (f reply)) : Guarded opens guarded (ask out >>= f) := ⟨hFree, h⟩

theorem guarded_orFail_bind {failure : δ → ε} {x : Except δ τ} {f : τ → Failing α β ε ρ}
    (h : ∀ value, x = .ok value → Guarded opens guarded (f value)) : Guarded opens guarded (orFail failure x >>= f) := by
  cases x with
  | ok value => exact h value rfl
  | error err => exact trivial

theorem guarded_unless {p : Prop} [Decidable p] {failure : ε} {f : Unit → Failing α β ε ρ}
    (h : ¬ p → Guarded opens guarded (f ())) : Guarded opens guarded (if p then throw failure >>= f else f ()) := by
  split
  · exact trivial
  · rename_i hNot
    exact h hNot

theorem Guarded.bind {f : Failing α β ε τ} {g : τ → Failing α β ε ρ} (hFirst : Guarded opens guarded f)
    (hLater : ∀ value, Guarded opens guarded (g value)) : Guarded opens guarded (f >>= g) := by
  refine Talk.Guarded.bind hFirst fun result => ?_
  cases result with
  | ok value => exact hLater value
  | error failure => exact trivial

theorem Guarded.tryCatch {f : Failing α β ε ρ} {handler : ε → Failing α β ε ρ} (hFirst : Guarded opens guarded f)
    (hHandler : ∀ failure, Guarded opens guarded (handler failure)) : Guarded opens guarded (tryCatch f handler) := by
  refine Talk.Guarded.bind hFirst fun result => ?_
  cases result with
  | ok value => exact trivial
  | error failure => exact hHandler failure

end Guarded

end Failing

end Pigeon.Library
