import Pigeon.Library.Text

/-! # Retries with a growing pause

The action is given by what each of its calls returns. Before the call with number `k` there is a pause of `k` times the
backoff, in seconds.
-/
namespace Pigeon.Core

open Library

set_option autoImplicit false

variable {α : Type*}

structure Retried (α : Type*) where
  result : Except Text α
  calls : Nat
  sleeps : List Nat

/-- The loop from one attempt on, with the error of the attempt before. -/
def retryFrom (backoff : Nat) (f : Nat → Except Text α) (attempt : Nat) (lastErr : Option Text) : Nat → Retried α
  | 0 => ⟨.error (lastErr.getD "retry_with_backoff called with zero attempts".toList), attempt, []⟩
  | remaining + 1 =>
    let sleeps := if attempt > 0 then [backoff * attempt] else []
    match f attempt with
    | .ok value => ⟨.ok value, attempt + 1, sleeps⟩
    | .error err =>
      let later := retryFrom backoff f (attempt + 1) (some err) remaining
      { later with sleeps := sleeps ++ later.sleeps }

def retryWithBackoff (attempts backoff : Nat) (f : Nat → Except Text α) : Retried α :=
  retryFrom backoff f 0 none (max attempts 1)

/-- The pauses before the calls from one number on. -/
def pausesFrom (backoff attempt calls : Nat) : List Nat :=
  ((List.range' attempt calls).filter fun call => 0 < call).map (backoff * ·)

theorem pausesFrom_succ (backoff attempt calls : Nat) :
    pausesFrom backoff attempt (calls + 1) =
      (if attempt > 0 then [backoff * attempt] else []) ++ pausesFrom backoff (attempt + 1) calls := by
  rw [pausesFrom, List.range'_succ, List.filter_cons]
  by_cases hPause : 0 < attempt
  · rw [if_pos (decide_eq_true hPause), if_pos hPause]
    rfl
  · rw [if_neg (by simpa using hPause), if_neg hPause]
    rfl

/-- The first success ends the loop; without one the last error comes out of it. -/
theorem retryFrom_spec (backoff : Nat) (f : Nat → Except Text α) (attempt : Nat) (lastErr : Option Text) (remaining : Nat) :
    (∃ more < remaining, ∃ value, f (attempt + more) = .ok value ∧ (∀ call < more, ∃ err, f (attempt + call) = .error err) ∧
        retryFrom backoff f attempt lastErr remaining =
          ⟨.ok value, attempt + more + 1, pausesFrom backoff attempt (more + 1)⟩) ∨
      ((∀ call < remaining, ∃ err, f (attempt + call) = .error err) ∧
        ∃ err, retryFrom backoff f attempt lastErr remaining =
            ⟨.error err, attempt + remaining, pausesFrom backoff attempt remaining⟩ ∧
          (0 < remaining → f (attempt + (remaining - 1)) = .error err)) := by
  induction remaining generalizing attempt lastErr with
  | zero => exact .inr ⟨fun call hCall => absurd hCall (Nat.not_lt_zero call), _, rfl, fun h => absurd h (Nat.lt_irrefl 0)⟩
  | succ remaining ih =>
    rw [retryFrom]
    cases hCall : f attempt with
    | ok value =>
      refine .inl ⟨0, Nat.succ_pos remaining, value, hCall, fun call h => absurd h (Nat.not_lt_zero call), ?_⟩
      rw [pausesFrom_succ]
      exact congrArg _ (List.append_nil _).symm
    | error err =>
      have hFailed : ∀ calls, (∀ call < calls, ∃ err, f (attempt + 1 + call) = .error err) →
          ∀ call < calls + 1, ∃ err, f (attempt + call) = .error err := by
        intro calls hLater call hLess
        cases call with
        | zero => exact ⟨err, hCall⟩
        | succ call =>
          rw [Nat.add_succ, ← Nat.succ_add]
          exact hLater call (Nat.lt_of_succ_lt_succ hLess)
      obtain ⟨more, hMore, value, hValue, hEarlier, hEnd⟩ | ⟨hAll, lastErr, hEnd, hLast⟩ := ih (attempt + 1) (some err)
      · refine .inl ⟨more + 1, Nat.succ_lt_succ hMore, value, ?_, hFailed more hEarlier, ?_⟩
        · rwa [Nat.add_succ, ← Nat.succ_add]
        · dsimp only
          rw [hEnd, pausesFrom_succ backoff attempt, Nat.add_right_comm attempt 1 more]
          rfl
      · refine .inr ⟨hFailed remaining hAll, lastErr, ?_, fun _ => ?_⟩
        · dsimp only
          rw [hEnd, pausesFrom_succ, Nat.add_right_comm attempt 1 remaining]
          rfl
        · cases remaining with
          | zero =>
            cases hEnd
            exact hCall
          | succ remaining =>
            have hLater := hLast (Nat.succ_pos remaining)
            rwa [Nat.add_sub_cancel, Nat.add_right_comm] at hLater

theorem pausesFrom_zero (backoff calls : Nat) : pausesFrom backoff 0 (calls + 1) = (List.range' 1 calls).map (backoff * ·) := by
  rw [pausesFrom_succ, if_neg (Nat.lt_irrefl 0), List.nil_append, pausesFrom, List.filter_eq_self.mpr]
  intro call hMem
  exact decide_eq_true (List.mem_range'_1.mp hMem).1

/-- The result is that of the last call; the calls before it failed, and it is the last that may be made unless it succeeds. -/
theorem retryWithBackoff_spec (attempts backoff : Nat) (f : Nat → Except Text α) :
    ∃ earlier < max attempts 1, (∀ call < earlier, ∃ err, f call = .error err) ∧
      retryWithBackoff attempts backoff f = ⟨f earlier, earlier + 1, (List.range' 1 earlier).map (backoff * ·)⟩ ∧
      ((∃ err, f earlier = .error err) → earlier + 1 = max attempts 1) := by
  rw [retryWithBackoff]
  obtain ⟨more, hMore, value, hValue, hEarlier, hEnd⟩ | ⟨hAll, err, hEnd, hLast⟩ := retryFrom_spec backoff f 0 none (max attempts 1)
  · rw [Nat.zero_add] at hValue hEnd
    simp only [Nat.zero_add] at hEarlier
    refine ⟨more, hMore, hEarlier, ?_, fun hFailed => ?_⟩
    · rw [hEnd, hValue, pausesFrom_zero]
    · obtain ⟨err, hErr⟩ := hFailed
      rw [hValue] at hErr
      cases hErr
  · have hPos : 0 < max attempts 1 := le_max_right attempts 1
    obtain ⟨earlier, hEarlier⟩ : ∃ earlier, max attempts 1 = earlier + 1 := ⟨max attempts 1 - 1, by omega⟩
    rw [hEarlier] at hAll hEnd hLast ⊢
    have hErr := hLast (Nat.succ_pos earlier)
    rw [Nat.add_sub_cancel, Nat.zero_add] at hErr
    simp only [Nat.zero_add] at hAll
    refine ⟨earlier, Nat.lt_succ_self earlier, fun call hCall => hAll call (Nat.lt_succ_of_lt hCall), ?_, fun _ => rfl⟩
    rw [hEnd, hErr, pausesFrom_zero, Nat.zero_add]

end Pigeon.Core
