import Pigeon.Gate.Agreement

/-! # The recovery budget

The round counter only grows, and a round is slept exactly when the counter it takes is within the
budget. So the rounds that are slept are the first ones in order, whoever sleeps them, and a call
that starts after the counter has passed the budget finds it spent on every path.
-/
namespace Pigeon.Gate

open Library

set_option autoImplicit false

namespace RecoveryGate

variable {ι : Type*} [DecidableEq ι] {maxRounds : Nat}

/-- The sleeps that a step begins. A round number stays far below `2 ^ 32`, since the rounds in
front of that one sleep for centuries, so the cast in `backoff * round as u32` keeps it. -/
def sleepOf (backoff : Nat) : Call → Call → List Nat
  | .closed, .sleeping round => [backoff * round]
  | _, _ => []

/-- How long each round lasts that is slept in the run, in order. -/
def sleeps (maxRounds backoff : Nat) : RecoveryGate ι → List ι → List Nat
  | _, [] => []
  | gate, c :: schedule =>
    match step maxRounds gate c with
    | none => []
    | some next => sleepOf backoff (gate.call c) (next.call c) ++ sleeps maxRounds backoff next schedule

def Spent : Call → Prop
  | .idle | .elected | .closed | .latching | .latched | .lost | .subscribed | .parked | .passed => True
  | .decided decision | .returned decision => decision = .giveUp
  | .sleeping _ | .woken | .opened => False

section Steps

variable {gate next : RecoveryGate ι} {c : ι} {backoff : Nat}

theorem sleepOf_of_ne {before after : Call} (h : before ≠ .closed) : sleepOf backoff before after = [] := by
  cases before with
  | closed => exact absurd rfl h
  | _ => rfl

theorem Move.counter (backoff : Nat) (hMove : Move maxRounds gate c next) :
    (next.rounds = gate.rounds ∧ sleepOf backoff (gate.call c) (next.call c) = []) ∨
      (next.rounds = gate.rounds + 1 ∧ maxRounds < next.rounds ∧ sleepOf backoff (gate.call c) (next.call c) = []) ∨
      (next.rounds = gate.rounds + 1 ∧ next.rounds ≤ maxRounds ∧
        sleepOf backoff (gate.call c) (next.call c) = [backoff * next.rounds]) := by
  have hOther {call : Call} (hCall : gate.call c = call) (hNe : call ≠ .closed) :
      sleepOf backoff (gate.call c) (next.call c) = [] := sleepOf_of_ne (hCall ▸ hNe)
  cases hMove with
  | latch hCall hSpent => exact .inr (.inl ⟨rfl, hSpent, by simp [sleepOf, hCall]⟩)
  | sleep hCall hLeft => exact .inr (.inr ⟨rfl, hLeft, by simp [sleepOf, hCall]⟩)
  | elect hCall | lose _ hCall | close hCall | wake _ hCall | reopen hCall | resume hCall | unlatch hCall
  | abandon hCall | subscribe hCall | pass hCall | park hCall | notice hCall | decide _ hCall | leave _ hCall =>
    exact .inl ⟨rfl, hOther hCall nofun⟩

theorem rounds_le_of_step (hStep : step maxRounds gate c = some next) : gate.rounds ≤ next.rounds := by
  obtain ⟨hRounds, -⟩ | ⟨hRounds, -⟩ | ⟨hRounds, -⟩ := (step_move hStep).counter 0 <;> omega

theorem decided_of_passed (hStep : step maxRounds gate c = some next) (hCall : gate.call c = .passed) :
    next.call c = .decided (if maxRounds < gate.rounds then .giveUp else .retry) := by
  simp only [step, hCall, Option.some.injEq] at hStep
  rw [← hStep, call_goto_self]

/-- With the counter past the budget the election and the loser's check both give up. -/
theorem Spent.step (hStep : step maxRounds gate c = some next) (hPast : maxRounds < gate.rounds) {d : ι}
    (h : Spent (gate.call d)) : Spent (next.call d) := by
  by_cases hSelf : d = c
  · subst d
    have hMove := step_move hStep
    cases hMove with
    | sleep hCall hLeft => omega
    | decide _ hCall =>
      rw [decided_of_passed hStep hCall, if_pos hPast]
      rfl
    | wake _ hCall | reopen hCall | resume hCall =>
      rw [hCall] at h
      exact h.elim
    | leave _ hCall =>
      rw [hCall] at h
      simpa [Spent] using h
    | elect | lose | close | latch | unlatch | abandon | subscribe | pass | park | notice => simp [Spent]
  · rwa [(step_move hStep).call_other hSelf]

end Steps

section Runs

variable {gate s : RecoveryGate ι} {backoff : Nat} {schedule : List ι}

theorem Spent.run (hRun : run (RecoveryGate.step maxRounds) gate schedule = some s) (hPast : maxRounds < gate.rounds) {c : ι}
    (h : Spent (gate.call c)) : Spent (s.call c) :=
  (run_preserves (fun gate => maxRounds < gate.rounds ∧ Spent (gate.call c))
    (fun _ _ _ hBefore hStep =>
      ⟨Nat.lt_of_lt_of_le hBefore.1 (rounds_le_of_step hStep), hBefore.2.step hStep hBefore.1⟩) hRun ⟨hPast, h⟩).2

theorem sleeps_run (hRun : run (step maxRounds) gate schedule = some s) :
    gate.rounds ≤ s.rounds ∧ sleeps maxRounds backoff gate schedule =
      (List.range' (gate.rounds + 1) (min s.rounds maxRounds - gate.rounds)).map (backoff * ·) := by
  induction schedule generalizing gate with
  | nil =>
    cases hRun
    refine ⟨Nat.le_refl _, ?_⟩
    rw [Nat.sub_eq_zero_of_le (Nat.min_le_left _ _)]
    rfl
  | cons c schedule ih =>
    obtain ⟨next, hStep, hRest⟩ := run_cons_eq_some.mp hRun
    obtain ⟨hLe, hSleeps⟩ := ih hRest
    refine ⟨Nat.le_trans (rounds_le_of_step hStep) hLe, ?_⟩
    simp only [sleeps, hStep, hSleeps]
    obtain ⟨hRounds, hNone⟩ | ⟨hRounds, hPast, hNone⟩ | ⟨hRounds, hLeft, hOne⟩ :=
      (step_move hStep).counter backoff
    · rw [hNone, hRounds, List.nil_append]
    · rw [hNone, List.nil_append, Nat.sub_eq_zero_of_le (by omega), Nat.sub_eq_zero_of_le (by omega)]
      rfl
    · have hCount : min s.rounds maxRounds - gate.rounds = min s.rounds maxRounds - next.rounds + 1 := by omega
      rw [hOne, hCount, List.range'_succ, List.map_cons, ← hRounds]
      rfl

end Runs

/-- At most one caller holds the election, so at most one sleeps; the rounds slept are the first
ones of the budget, the `k`th for `k` times the backoff; and a call that starts once the counter is
past the budget neither sleeps nor returns `Retry`. -/
theorem recovery_budget (maxRounds backoff : Nat) (schedule : List ι) (s : RecoveryGate ι)
    (hRun : run (step maxRounds) new schedule = some s) :
    (∀ c d, (s.call c).Probing → (s.call d).Probing → c = d) ∧
      (∃ rounds ≤ maxRounds, sleeps maxRounds backoff new schedule = (List.range' 1 rounds).map (backoff * ·)) ∧
      (maxRounds < s.rounds → ∀ c, s.call c = .idle → ∀ later t, run (step maxRounds) s later = some t →
        (∀ round, t.call c ≠ .sleeping round) ∧ t.call c ≠ .returned .retry) := by
  have hInv : Inv s := run_preserves Inv (fun _ _ _ h hStep => h.move (step_move hStep)) hRun inv_new
  refine ⟨fun c d hProbing hOther => prober_unique hInv hProbing hOther, ?_, ?_⟩
  · refine ⟨min s.rounds maxRounds, Nat.min_le_right _ _, ?_⟩
    exact (sleeps_run hRun).2
  · intro hPast c hIdle later t hLater
    have hSpent : Spent (t.call c) := Spent.run hLater hPast (by rw [hIdle]; trivial)
    constructor
    · intro round hSleeping
      rw [hSleeping] at hSpent
      exact hSpent
    · intro hRetry
      rw [hRetry] at hSpent
      cases hSpent

/-- The first caller spends a budget of one round, the second finds it spent. -/
theorem recovery_budget_one_round :
    ∃ s : RecoveryGate Nat, 1 < s.rounds ∧ sleeps 1 60 (new : RecoveryGate Nat) [0, 0, 0, 0, 0, 0, 1, 1, 1] = [60] ∧
      ∀ later t, run (step 1) s later = some t → t.call 2 ≠ .returned .retry := by
  have hEnds : (run (step 1) (new : RecoveryGate Nat) [0, 0, 0, 0, 0, 0, 1, 1, 1]).map
      (fun s => decide (1 < s.rounds ∧ s.call 2 = .idle)) = some true := by decide +kernel
  obtain ⟨s, hRun, hCheck⟩ := Option.map_eq_some_iff.mp hEnds
  obtain ⟨hPast, hIdle⟩ := of_decide_eq_true hCheck
  refine ⟨s, hPast, by decide +kernel, fun later t hLater => ?_⟩
  exact ((recovery_budget 1 60 _ s hRun).2.2 hPast 2 hIdle later t hLater).2

end RecoveryGate

end Pigeon.Gate
