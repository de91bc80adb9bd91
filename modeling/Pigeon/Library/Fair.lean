import Mathlib.Order.Basic

/-! # Runs under a fair schedule

An endless schedule names the agent that takes the next step. It is fair when every agent is named again and
again. A run ends under each of them if some agent is always helpful: its step brings the end nearer, and until
then the others either do that or leave it helpful.
-/
namespace Pigeon.Library

set_option autoImplicit false

variable {σ κ : Type*}

def stateAt (step : σ → κ → σ) (schedule : Nat → κ) (s : σ) : Nat → σ
  | 0 => s
  | n + 1 => step (stateAt step schedule s n) (schedule n)

def Fair (agents : κ → Prop) (schedule : Nat → κ) : Prop := ∀ k, agents k → ∀ n, ∃ m, n ≤ m ∧ schedule m = k

theorem stateAt_keeps {step : σ → κ → σ} {invariant : σ → Prop} (keeps : ∀ s k, invariant s → invariant (step s k))
    (schedule : Nat → κ) {s : σ} (h : invariant s) (n : Nat) : invariant (stateAt step schedule s n) := by
  induction n with
  | zero => exact h
  | succ n ih => exact keeps _ _ ih

theorem fair_mod (agents : Nat) : Fair (· < agents) (· % agents) := by
  intro k hk n
  refine ⟨n * agents + k, ?_, ?_⟩
  · have hAgents : n * 1 ≤ n * agents := Nat.mul_le_mul_left n (Nat.zero_lt_of_lt hk)
    omega
  · show (n * agents + k) % agents = k
    rw [Nat.add_comm, Nat.add_mul_mod_self_right, Nat.mod_eq_of_lt hk]

structure Helps (step : σ → κ → σ) (agents : κ → Prop) (invariant final : σ → Prop) (measure : σ → Nat)
    (helpful : σ → κ → Prop) : Prop where
  keeps : ∀ s k, invariant s → invariant (step s k)
  found : ∀ s, invariant s → ¬ final s → ∃ k, agents k ∧ helpful s k
  falls : ∀ s k, invariant s → helpful s k → measure (step s k) < measure s
  waits : ∀ s k other, invariant s → helpful s k → other ≠ k →
    measure (step s other) < measure s ∨ measure (step s other) = measure s ∧ helpful (step s other) k

namespace Helps

variable {step : σ → κ → σ} {agents : κ → Prop} {invariant final : σ → Prop} {measure : σ → Nat}
  {helpful : σ → κ → Prop} {schedule : Nat → κ} {s : σ}

theorem falls_before (h : Helps step agents invariant final measure helpful) (hs : invariant s) {k : κ} {n : Nat}
    (wait : Nat) (hTurn : schedule (n + wait) = k) (hHelpful : helpful (stateAt step schedule s n) k) :
    ∃ m, measure (stateAt step schedule s m) < measure (stateAt step schedule s n) := by
  induction wait generalizing n with
  | zero =>
    refine ⟨n + 1, ?_⟩
    rw [Nat.add_zero] at hTurn
    rw [stateAt, hTurn]
    exact h.falls _ _ (stateAt_keeps h.keeps schedule hs n) hHelpful
  | succ wait ih =>
    have hSound := stateAt_keeps h.keeps schedule hs n
    by_cases hNow : schedule n = k
    · refine ⟨n + 1, ?_⟩
      rw [stateAt, hNow]
      exact h.falls _ _ hSound hHelpful
    · obtain hFallen | ⟨hSame, hStill⟩ := h.waits _ _ _ hSound hHelpful hNow
      · exact ⟨n + 1, hFallen⟩
      · have hNext : schedule (n + 1 + wait) = k := by
          rw [← hTurn]
          congr 1
          omega
        obtain ⟨m, hm⟩ := ih hNext hStill
        exact ⟨m, lt_of_lt_of_eq hm hSame⟩

theorem ends (h : Helps step agents invariant final measure helpful) (hs : invariant s)
    (hFair : Fair agents schedule) : ∃ n, final (stateAt step schedule s n) := by
  have hFrom (bound n : Nat) (hBound : measure (stateAt step schedule s n) = bound) :
      ∃ m, final (stateAt step schedule s m) := by
    induction bound using Nat.strongRecOn generalizing n with
    | _ bound ih =>
      by_cases hFinal : final (stateAt step schedule s n)
      · exact ⟨n, hFinal⟩
      · obtain ⟨k, hAgent, hHelpful⟩ := h.found _ (stateAt_keeps h.keeps schedule hs n) hFinal
        obtain ⟨turn, hLater, hTurn⟩ := hFair k hAgent n
        obtain ⟨wait, rfl⟩ := Nat.exists_eq_add_of_le hLater
        obtain ⟨m, hm⟩ := h.falls_before hs wait hTurn hHelpful
        exact ih _ (hBound ▸ hm) m rfl
  exact hFrom _ 0 rfl

end Helps

end Pigeon.Library
