import Pigeon.Library.Runs
import Pigeon.Library.Watch

/-! # The recovery gate

`RecoveryGate` of the email import and `EndpointGate` of the transform run the same
algorithm. A caller is one call of `wait_for_recovery`; its program counter names the
statement it executes next, and a schedule is the list of callers that take a step.
-/
namespace Pigeon.Gate

open Library

set_option autoImplicit false

inductive GateDecision where
  | retry
  | giveUp
  deriving DecidableEq, Repr

inductive Call where
  | idle
  | elected
  | closed
  | sleeping (round : Nat)
  | woken
  | opened
  | latching
  | latched
  | lost
  | subscribed
  | parked
  | passed
  | decided (decision : GateDecision)
  | returned (decision : GateDecision)
  deriving DecidableEq, Repr

namespace Call

/-- The call holds the election. -/
def Probing : Call → Prop
  | elected | closed | sleeping _ | woken | opened | latching | latched => True
  | _ => False

/-- The call owns a live receiver. -/
def Listening : Call → Prop
  | subscribed | parked | passed | decided _ => True
  | _ => False

/-- The call lost the election and has not been let through since. -/
def Waiting : Call → Prop
  | lost | subscribed | parked => True
  | _ => False

end Call

structure RecoveryGate (ι : Type*) where
  openFlag : Watch ι Bool
  prober : Option ι
  rounds : Nat
  call : ι → Call

namespace RecoveryGate

variable {ι : Type*}

def new : RecoveryGate ι where
  openFlag := Watch.new true
  prober := none
  rounds := 0
  call _ := .idle

variable [DecidableEq ι]

def goto (gate : RecoveryGate ι) (c : ι) (call : Call) : RecoveryGate ι :=
  { gate with call := Function.update gate.call c call }

/-- One statement of `wait_for_recovery`, executed by the caller `c`. -/
def step (maxRounds : Nat) (gate : RecoveryGate ι) (c : ι) : Option (RecoveryGate ι) :=
  match gate.call c with
  | .idle =>
    match gate.prober with
    | none => some { gate.goto c .elected with prober := some c }
    | some _ => some (gate.goto c .lost)
  | .elected => some { gate.goto c .closed with openFlag := gate.openFlag.send false }
  | .closed =>
    let round := gate.rounds + 1
    some { gate.goto c (if maxRounds < round then .latching else .sleeping round) with
      rounds := round }
  | .sleeping _ => some (gate.goto c .woken)
  | .woken => some { gate.goto c .opened with openFlag := gate.openFlag.send true }
  -- The election guard is dropped when the call returns.
  | .opened => some { gate.goto c (.returned .retry) with prober := none }
  | .latching => some { gate.goto c .latched with openFlag := gate.openFlag.send true }
  | .latched => some { gate.goto c (.returned .giveUp) with prober := none }
  | .lost => some { gate.goto c .subscribed with openFlag := gate.openFlag.subscribe c }
  | .subscribed =>
    some { gate.goto c (if gate.openFlag.value then .passed else .parked) with
      openFlag := gate.openFlag.borrowAndUpdate c }
  -- `changed` resolves once the version moved on, and marks the value as seen.
  | .parked =>
    if gate.openFlag.hasChanged c then
      some { gate.goto c .subscribed with openFlag := gate.openFlag.borrowAndUpdate c }
    else none
  | .passed => some (gate.goto c (.decided (if maxRounds < gate.rounds then .giveUp else .retry)))
  | .decided decision =>
    some { gate.goto c (.returned decision) with openFlag := gate.openFlag.drop c }
  | .returned _ => none

/-- `IMAP_RECOVERY_ROUNDS`, `PUSH_RECOVERY_ROUNDS` and `PUSH_ENDPOINT_RECOVERY_ROUNDS`. -/
def imapRecoveryRounds : Nat := 6

def pushRecoveryRounds : Nat := 4

def pushEndpointRecoveryRounds : Nat := 4

theorem call_goto (gate : RecoveryGate ι) (c : ι) (call : Call) (d : ι) :
    (gate.goto c call).call d = if d = c then call else gate.call d :=
  Function.update_apply gate.call c call d

@[simp] theorem call_goto_self (gate : RecoveryGate ι) (c : ι) (call : Call) :
    (gate.goto c call).call c = call := by
  rw [call_goto, if_pos rfl]

@[simp] theorem openFlag_goto (gate : RecoveryGate ι) (c : ι) (call : Call) :
    (gate.goto c call).openFlag = gate.openFlag := rfl

@[simp] theorem prober_goto (gate : RecoveryGate ι) (c : ι) (call : Call) :
    (gate.goto c call).prober = gate.prober := rfl

@[simp] theorem rounds_goto (gate : RecoveryGate ι) (c : ι) (call : Call) :
    (gate.goto c call).rounds = gate.rounds := rfl

/-- Everything a step can do, by the statement the caller stands at. -/
inductive Move (maxRounds : Nat) (gate : RecoveryGate ι) (c : ι) : RecoveryGate ι → Prop
  | elect (hCall : gate.call c = .idle) (hFree : gate.prober = none) :
      Move maxRounds gate c { gate.goto c .elected with prober := some c }
  | lose (holder : ι) (hCall : gate.call c = .idle) (hHeld : gate.prober = some holder) :
      Move maxRounds gate c (gate.goto c .lost)
  | close (hCall : gate.call c = .elected) :
      Move maxRounds gate c { gate.goto c .closed with openFlag := gate.openFlag.send false }
  | latch (hCall : gate.call c = .closed) (hSpent : maxRounds < gate.rounds + 1) :
      Move maxRounds gate c { gate.goto c .latching with rounds := gate.rounds + 1 }
  | sleep (hCall : gate.call c = .closed) (hLeft : gate.rounds + 1 ≤ maxRounds) :
      Move maxRounds gate c
        { gate.goto c (.sleeping (gate.rounds + 1)) with rounds := gate.rounds + 1 }
  | wake (round : Nat) (hCall : gate.call c = .sleeping round) :
      Move maxRounds gate c (gate.goto c .woken)
  | reopen (hCall : gate.call c = .woken) :
      Move maxRounds gate c { gate.goto c .opened with openFlag := gate.openFlag.send true }
  | resume (hCall : gate.call c = .opened) :
      Move maxRounds gate c { gate.goto c (.returned .retry) with prober := none }
  | unlatch (hCall : gate.call c = .latching) :
      Move maxRounds gate c { gate.goto c .latched with openFlag := gate.openFlag.send true }
  | abandon (hCall : gate.call c = .latched) :
      Move maxRounds gate c { gate.goto c (.returned .giveUp) with prober := none }
  | subscribe (hCall : gate.call c = .lost) :
      Move maxRounds gate c { gate.goto c .subscribed with openFlag := gate.openFlag.subscribe c }
  | pass (hCall : gate.call c = .subscribed) (hOpen : gate.openFlag.value = true) :
      Move maxRounds gate c { gate.goto c .passed with openFlag := gate.openFlag.borrowAndUpdate c }
  | park (hCall : gate.call c = .subscribed) (hShut : gate.openFlag.value = false) :
      Move maxRounds gate c { gate.goto c .parked with openFlag := gate.openFlag.borrowAndUpdate c }
  | notice (hCall : gate.call c = .parked) (hChanged : gate.openFlag.hasChanged c = true) :
      Move maxRounds gate c
        { gate.goto c .subscribed with openFlag := gate.openFlag.borrowAndUpdate c }
  | decide (decision : GateDecision) (hCall : gate.call c = .passed) :
      Move maxRounds gate c (gate.goto c (.decided decision))
  | leave (decision : GateDecision) (hCall : gate.call c = .decided decision) :
      Move maxRounds gate c
        { gate.goto c (.returned decision) with openFlag := gate.openFlag.drop c }

theorem step_move {maxRounds : Nat} {gate next : RecoveryGate ι} {c : ι}
    (h : step maxRounds gate c = some next) : Move maxRounds gate c next := by
  rw [step] at h
  cases hCall : gate.call c with
  | idle =>
    cases hProber : gate.prober with
    | none =>
      simp only [hCall, hProber, Option.some.injEq] at h
      exact h ▸ .elect hCall hProber
    | some holder =>
      simp only [hCall, hProber, Option.some.injEq] at h
      exact h ▸ .lose holder hCall hProber
  | closed =>
    simp only [hCall, Option.some.injEq] at h
    by_cases hSpent : maxRounds < gate.rounds + 1
    · rw [if_pos hSpent] at h
      exact h ▸ .latch hCall hSpent
    · rw [if_neg hSpent] at h
      exact h ▸ .sleep hCall (Nat.le_of_not_lt hSpent)
  | subscribed =>
    simp only [hCall, Option.some.injEq] at h
    cases hValue : gate.openFlag.value with
    | true =>
      rw [hValue, if_pos rfl] at h
      exact h ▸ .pass hCall hValue
    | false =>
      rw [hValue, if_neg Bool.false_ne_true] at h
      exact h ▸ .park hCall hValue
  | parked =>
    simp only [hCall] at h
    split at h
    · rename_i hChanged
      cases h
      exact .notice hCall hChanged
    · cases h
  | passed =>
    simp only [hCall, Option.some.injEq] at h
    exact h ▸ .decide _ hCall
  | returned decision => simp [hCall] at h
  | elected =>
    simp only [hCall, Option.some.injEq] at h
    exact h ▸ .close hCall
  | sleeping round =>
    simp only [hCall, Option.some.injEq] at h
    exact h ▸ .wake round hCall
  | woken =>
    simp only [hCall, Option.some.injEq] at h
    exact h ▸ .reopen hCall
  | opened =>
    simp only [hCall, Option.some.injEq] at h
    exact h ▸ .resume hCall
  | latching =>
    simp only [hCall, Option.some.injEq] at h
    exact h ▸ .unlatch hCall
  | latched =>
    simp only [hCall, Option.some.injEq] at h
    exact h ▸ .abandon hCall
  | lost =>
    simp only [hCall, Option.some.injEq] at h
    exact h ▸ .subscribe hCall
  | decided decision =>
    simp only [hCall, Option.some.injEq] at h
    exact h ▸ .leave decision hCall

end RecoveryGate

end Pigeon.Gate
