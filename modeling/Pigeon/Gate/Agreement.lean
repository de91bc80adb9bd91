import Pigeon.Gate.Model

/-! # When the gate flag agrees with the election

A send reaches the stored value only while some losing caller is subscribed. `Agrees` is
what the gate is for; it survives every step whose send lands, and a prober whose send
is lost runs on into a state that contradicts it.
-/
namespace Pigeon.Gate

open Library

set_option autoImplicit false

namespace RecoveryGate

variable {ι : Type*} {maxRounds : Nat}

/-- The bookkeeping of the election lock and of the live receivers. -/
structure Inv (gate : RecoveryGate ι) : Prop where
  prober : ∀ c, gate.prober = some c ↔ (gate.call c).Probing
  listening : ∀ c, c ∈ gate.openFlag.receivers ↔ (gate.call c).Listening
  nodup : gate.openFlag.receivers.Nodup
  seen : ∀ c, gate.openFlag.seen c ≤ gate.openFlag.version
  parked : ∀ c, gate.call c = .parked →
    gate.openFlag.seen c = gate.openFlag.version → gate.openFlag.value = false

/-- What the stored flag is, by the statement the prober stands at. -/
structure Flag (maxRounds : Nat) (gate : RecoveryGate ι) : Prop where
  free : gate.prober = none → gate.openFlag.value = true
  closed : ∀ c, gate.call c = .closed →
    gate.openFlag.value = false ∨ maxRounds < gate.rounds + 1
  sleeping : ∀ c round, gate.call c = .sleeping round → gate.openFlag.value = false
  opened : ∀ c, gate.call c = .opened → gate.openFlag.value = true
  latched : ∀ c, gate.call c = .latched → gate.openFlag.value = true

structure Agrees (gate : RecoveryGate ι) : Prop where
  shut_while_sleeping : ∀ c round, gate.call c = .sleeping round → gate.openFlag.value = false
  open_when_free : gate.prober = none → gate.openFlag.value = true

/-- The send that the caller makes next reaches the stored value. The close of a round
that the budget refuses is exempt: nobody sleeps that round. -/
def SendLands (maxRounds : Nat) (gate : RecoveryGate ι) (c : ι) : Prop :=
  match gate.call c with
  | .elected => gate.openFlag.Lands false ∨ maxRounds < gate.rounds + 1
  | .woken | .latching => gate.openFlag.Lands true
  | _ => True

theorem inv_new : Inv (new : RecoveryGate ι) where
  prober _ := ⟨nofun, nofun⟩
  listening _ := ⟨nofun, nofun⟩
  nodup := .nil
  seen _ := Nat.le_refl _
  parked _ := nofun

theorem flag_new : Flag maxRounds (new : RecoveryGate ι) where
  free _ := rfl
  closed _ := nofun
  sleeping _ _ := nofun
  opened _ := nofun
  latched _ := nofun

theorem Flag.agrees {gate : RecoveryGate ι} (h : Flag maxRounds gate) : Agrees gate :=
  ⟨h.sleeping, h.free⟩

theorem prober_unique {gate : RecoveryGate ι} (h : Inv gate) {c d : ι}
    (hc : (gate.call c).Probing) (hd : (gate.call d).Probing) : c = d := by
  have hProber := (h.prober c).mpr hc
  rw [(h.prober d).mpr hd] at hProber
  exact (Option.some.inj hProber).symm

theorem not_probing_of_free {gate : RecoveryGate ι} (h : Inv gate) (hFree : gate.prober = none)
    (c : ι) : ¬ (gate.call c).Probing := by
  intro hc
  rw [(h.prober c).mpr hc] at hFree
  cases hFree

section Steps

variable [DecidableEq ι] {gate next : RecoveryGate ι} {c : ι}

theorem Move.call_other (hMove : Move maxRounds gate c next) {d : ι} (hNe : d ≠ c) :
    next.call d = gate.call d := by
  cases hMove <;> exact (call_goto gate c _ d).trans (if_neg hNe)

theorem Move.election (hMove : Move maxRounds gate c next) :
    (gate.prober = none ∧ next.prober = some c ∧ (next.call c).Probing) ∨
    ((gate.call c).Probing ∧ next.prober = none ∧ ¬ (next.call c).Probing) ∨
    (next.prober = gate.prober ∧ ((next.call c).Probing ↔ (gate.call c).Probing)) := by
  cases hMove <;> simp [Call.Probing, *]

theorem Move.channel (hMove : Move maxRounds gate c next) :
    (∃ v, (gate.call c).Probing ∧ (next.call c).Probing ∧
      next.openFlag = gate.openFlag.send v) ∨
    (gate.call c = .lost ∧ next.call c = .subscribed ∧
      next.openFlag = gate.openFlag.subscribe c) ∨
    ((gate.call c).Listening ∧ (next.call c).Listening ∧
      next.openFlag = gate.openFlag.borrowAndUpdate c ∧
      (next.call c = .parked → gate.openFlag.value = false)) ∨
    ((gate.call c).Listening ∧ ¬ (next.call c).Listening ∧
      next.openFlag = gate.openFlag.drop c) ∨
    (next.openFlag = gate.openFlag ∧ ((next.call c).Listening ↔ (gate.call c).Listening) ∧
      next.call c ≠ .parked) := by
  cases hMove with
  | close hCall => exact .inl ⟨false, by simp [Call.Probing, hCall]⟩
  | reopen hCall => exact .inl ⟨true, by simp [Call.Probing, hCall]⟩
  | unlatch hCall => exact .inl ⟨true, by simp [Call.Probing, hCall]⟩
  | subscribe hCall => exact .inr (.inl (by simp [hCall]))
  | pass hCall hOpen => exact .inr (.inr (.inl (by simp [Call.Listening, hCall])))
  | park hCall hShut => exact .inr (.inr (.inl (by simp [Call.Listening, hCall, hShut])))
  | notice hCall hChanged => exact .inr (.inr (.inl (by simp [Call.Listening, hCall])))
  | leave decision hCall => exact .inr (.inr (.inr (.inl (by simp [Call.Listening, hCall]))))
  | _ => exact .inr (.inr (.inr (.inr (by simp [Call.Listening, *]))))

theorem Inv.prober_move (h : Inv gate) (hMove : Move maxRounds gate c next) (d : ι) :
    next.prober = some d ↔ (next.call d).Probing := by
  by_cases hEq : d = c
  · subst d
    obtain ⟨_, hProber, hProbing⟩ | ⟨_, hProber, hProbing⟩ | ⟨hProber, hProbing⟩ := hMove.election
    · simp [hProber, hProbing]
    · simp [hProber, hProbing]
    · rw [hProber, hProbing]
      exact h.prober c
  · rw [hMove.call_other hEq, ← h.prober d]
    obtain ⟨hFree, hProber, _⟩ | ⟨hProbing, hProber, _⟩ | ⟨hProber, _⟩ := hMove.election
    · simp [hFree, hProber, Ne.symm hEq]
    · simp [(h.prober c).mpr hProbing, hProber, Ne.symm hEq]
    · rw [hProber]

theorem not_listening_of_probing {call : Call} (h : call.Probing) : ¬ call.Listening := by
  cases call <;> simp_all [Call.Probing, Call.Listening]

theorem Inv.listening_move (h : Inv gate) (hMove : Move maxRounds gate c next) (d : ι) :
    d ∈ next.openFlag.receivers ↔ (next.call d).Listening := by
  by_cases hEq : d = c
  · subst d
    have hSelf := h.listening c
    obtain ⟨v, hOld, hNew, hFlag⟩ | ⟨hOld, hNew, hFlag⟩ | ⟨hOld, hNew, hFlag, _⟩ | ⟨hOld, hNew, hFlag⟩ |
      ⟨hFlag, hSame, _⟩ := hMove.channel
    · simp [hFlag, hSelf, not_listening_of_probing hOld, not_listening_of_probing hNew]
    · simp [hFlag, hNew, Call.Listening]
    · simp [hFlag, hSelf, hOld, hNew]
    · simp [hFlag, hNew, h.nodup.mem_erase_iff]
    · rw [hFlag, hSame, hSelf]
  · rw [hMove.call_other hEq, ← h.listening d]
    obtain ⟨v, _, _, hFlag⟩ | ⟨_, _, hFlag⟩ | ⟨_, _, hFlag, _⟩ | ⟨_, _, hFlag⟩ | ⟨hFlag, _⟩ := hMove.channel
    · simp [hFlag]
    · simp [hFlag, hEq]
    · simp [hFlag]
    · simp [hFlag, List.mem_erase_of_ne hEq]
    · rw [hFlag]

theorem Inv.nodup_move (h : Inv gate) (hMove : Move maxRounds gate c next) :
    next.openFlag.receivers.Nodup := by
  obtain ⟨v, _, _, hFlag⟩ | ⟨hOld, _, hFlag⟩ | ⟨_, _, hFlag, _⟩ | ⟨_, _, hFlag⟩ | ⟨hFlag, _⟩ := hMove.channel
  · simpa [hFlag] using h.nodup
  · have hFresh : c ∉ gate.openFlag.receivers := by
      rw [h.listening c, hOld]
      exact id
    simpa [hFlag] using ⟨hFresh, h.nodup⟩
  · simpa [hFlag] using h.nodup
  · simpa [hFlag] using h.nodup.erase c
  · rw [hFlag]
    exact h.nodup

theorem Inv.seen_move (h : Inv gate) (hMove : Move maxRounds gate c next) (d : ι) :
    next.openFlag.seen d ≤ next.openFlag.version := by
  have hSeen := h.seen d
  obtain ⟨v, _, _, hFlag⟩ | ⟨_, _, hFlag⟩ | ⟨_, _, hFlag, _⟩ | ⟨_, _, hFlag⟩ | ⟨hFlag, _⟩ := hMove.channel
  · rw [hFlag, Watch.seen_send]
    exact Nat.le_trans hSeen (gate.openFlag.version_le_version_send v)
  · rw [hFlag, Watch.seen_subscribe, Watch.version_subscribe]
    split <;> omega
  · rw [hFlag, Watch.seen_borrowAndUpdate, Watch.version_borrowAndUpdate]
    split <;> omega
  · rwa [hFlag]
  · rwa [hFlag]

/-- A caller parked on the current version read it as closed: a send that moves the value
moves the version as well, since the parked caller receives it. -/
theorem Inv.parked_move (h : Inv gate) (hMove : Move maxRounds gate c next) (d : ι)
    (hParked : next.call d = .parked) (hCurrent : next.openFlag.seen d = next.openFlag.version) :
    next.openFlag.value = false := by
  by_cases hEq : d = c
  · subst d
    obtain ⟨_, _, hNew, _⟩ | ⟨_, hNew, _⟩ | ⟨_, _, hFlag, hShut⟩ | ⟨_, hNew, _⟩ | ⟨_, _, hNew⟩ := hMove.channel
    · simp [hParked, Call.Probing] at hNew
    · simp [hParked] at hNew
    · simpa [hFlag] using hShut hParked
    · simp [hParked, Call.Listening] at hNew
    · exact absurd hParked hNew
  · rw [hMove.call_other hEq] at hParked
    have hReceives : d ∈ gate.openFlag.receivers := (h.listening d).mpr (by simp [hParked, Call.Listening])
    have hSeen := h.seen d
    obtain ⟨v, _, _, hFlag⟩ | ⟨_, _, hFlag⟩ | ⟨_, _, hFlag, _⟩ | ⟨_, _, hFlag⟩ | ⟨hFlag, _⟩ := hMove.channel
    · rw [hFlag, Watch.seen_send, Watch.version_send_of_mem v hReceives] at hCurrent
      omega
    · rw [hFlag, Watch.seen_subscribe, if_neg hEq] at hCurrent
      rw [hFlag]
      exact h.parked d hParked hCurrent
    · rw [hFlag, Watch.seen_borrowAndUpdate, if_neg hEq] at hCurrent
      rw [hFlag]
      exact h.parked d hParked hCurrent
    · rw [hFlag] at hCurrent ⊢
      exact h.parked d hParked hCurrent
    · rw [hFlag] at hCurrent ⊢
      exact h.parked d hParked hCurrent

theorem Inv.move (h : Inv gate) (hMove : Move maxRounds gate c next) : Inv next where
  prober := h.prober_move hMove
  listening := h.listening_move hMove
  nodup := h.nodup_move hMove
  seen := h.seen_move hMove
  parked := h.parked_move hMove

theorem Move.quiet (hMove : Move maxRounds gate c next) (hCaller : ¬ (gate.call c).Probing) :
    next.openFlag.value = gate.openFlag.value ∧ next.rounds = gate.rounds := by
  cases hMove <;> simp_all [Call.Probing]

theorem Inv.quiet_of_probing (h : Inv gate) (hMove : Move maxRounds gate c next) {d : ι} (hNe : d ≠ c)
    (hProbing : (next.call d).Probing) :
    next.openFlag.value = gate.openFlag.value ∧ next.rounds = gate.rounds := by
  rw [hMove.call_other hNe] at hProbing
  exact hMove.quiet (fun hCaller => hNe (prober_unique h hProbing hCaller))

theorem Flag.free_move (hInv : Inv gate) (h : Flag maxRounds gate) (hMove : Move maxRounds gate c next)
    (hFree : next.prober = none) : next.openFlag.value = true := by
  cases hMove with
  | elect => cases hFree
  | resume hCall => exact h.opened c hCall
  | abandon hCall => exact h.latched c hCall
  | close hCall | reopen hCall | unlatch hCall | latch hCall _ | sleep hCall _ | wake _ hCall =>
    exact absurd (by simp [hCall, Call.Probing]) (not_probing_of_free hInv hFree c)
  | lose | subscribe | pass | park | notice | decide | leave => exact h.free hFree

theorem Flag.move (hInv : Inv gate) (h : Flag maxRounds gate) (hLands : SendLands maxRounds gate c)
    (hMove : Move maxRounds gate c next) : Flag maxRounds next where
  free := h.free_move hInv hMove
  closed d hClosed := by
    by_cases hEq : d = c
    · subst d
      cases hMove with
      | close hCall =>
        rw [SendLands, hCall] at hLands
        exact hLands.imp_left Watch.value_send_of_lands
      | _ => simp_all
    · obtain ⟨hValue, hRounds⟩ := hInv.quiet_of_probing hMove hEq (by simp [hClosed, Call.Probing])
      rw [hValue, hRounds]
      exact h.closed d (hMove.call_other hEq ▸ hClosed)
  sleeping d round hSleeping := by
    by_cases hEq : d = c
    · subst d
      cases hMove with
      | sleep hCall hLeft => exact (h.closed c hCall).resolve_right (by omega)
      | _ => simp_all
    · rw [(hInv.quiet_of_probing hMove hEq (by simp [hSleeping, Call.Probing])).1]
      exact h.sleeping d round (hMove.call_other hEq ▸ hSleeping)
  opened d hOpened := by
    by_cases hEq : d = c
    · subst d
      cases hMove with
      | reopen hCall =>
        rw [SendLands, hCall] at hLands
        exact Watch.value_send_of_lands hLands
      | _ => simp_all
    · rw [(hInv.quiet_of_probing hMove hEq (by simp [hOpened, Call.Probing])).1]
      exact h.opened d (hMove.call_other hEq ▸ hOpened)
  latched d hLatched := by
    by_cases hEq : d = c
    · subst d
      cases hMove with
      | unlatch hCall =>
        rw [SendLands, hCall] at hLands
        exact Watch.value_send_of_lands hLands
      | _ => simp_all
    · rw [(hInv.quiet_of_probing hMove hEq (by simp [hLatched, Call.Probing])).1]
      exact h.latched d (hMove.call_other hEq ▸ hLatched)

/-- Since `c` lost the election to the sleeping `p`, either `p` still sleeps that round and
`c` waits, or the round is over. -/
def HeldOut (p c : ι) (round : Nat) (gate : RecoveryGate ι) : Prop :=
  (gate.call p = .sleeping round ∧ (gate.call c).Waiting) ∨
  gate.call p = .woken ∨ gate.call p = .opened ∨ ∃ decision, gate.call p = .returned decision

theorem HeldOut.move {p d : ι} {round : Nat} (hFlag : Flag maxRounds gate) (h : HeldOut p d round gate)
    (hMove : Move maxRounds gate c next) : HeldOut p d round next := by
  by_cases hProber : p = c
  · subst p
    refine .inr ?_
    obtain ⟨hCall, _⟩ | hCall | hCall | ⟨decision, hCall⟩ := h <;> cases hMove <;> simp_all
  · rw [HeldOut, hMove.call_other hProber]
    refine h.imp_left fun ⟨hSleeping, hWaiting⟩ => ⟨hSleeping, ?_⟩
    have hShut := hFlag.sleeping p round hSleeping
    by_cases hLoser : d = c
    · subst d
      cases hMove <;> simp_all [Call.Waiting]
    · rwa [hMove.call_other hLoser]

end Steps

variable [DecidableEq ι]

theorem allowed_run {gate : RecoveryGate ι} {schedule : List ι}
    (hLands : Within (step maxRounds) (SendLands maxRounds) new schedule)
    (hRun : run (step maxRounds) new schedule = some gate) : Inv gate ∧ Flag maxRounds gate :=
  run_invariant (fun gate => Inv gate ∧ Flag maxRounds gate)
    (fun _ _ _ h hOk hStep => ⟨h.1.move (step_move hStep), h.2.move h.1 hOk (step_move hStep)⟩)
    hLands hRun ⟨inv_new, flag_new⟩

theorem held_out_of_loses {gate later : RecoveryGate ι} {p c : ι} {round : Nat} {rest : List ι}
    (hInv : Inv gate) (hFlag : Flag maxRounds gate) (hSleeping : gate.call p = .sleeping round)
    (hIdle : gate.call c = .idle) (hLands : Within (step maxRounds) (SendLands maxRounds) gate (c :: rest))
    (hRun : run (step maxRounds) gate (c :: rest) = some later) : HeldOut p c round later := by
  obtain ⟨next, hStep, hRest⟩ := run_cons_eq_some.mp hRun
  have hHeld : gate.prober = some p := (hInv.prober p).mpr (by simp [hSleeping, Call.Probing])
  have hLost : HeldOut p c round next := by
    have hNe : p ≠ c := by
      rintro rfl
      rw [hSleeping] at hIdle
      cases hIdle
    refine .inl ⟨(step_move hStep).call_other hNe ▸ hSleeping, ?_⟩
    simp only [step, hIdle, hHeld, Option.some.injEq] at hStep
    simp [← hStep, Call.Waiting]
  have hMoved := step_move hStep
  exact (run_invariant (fun gate => (Inv gate ∧ Flag maxRounds gate) ∧ HeldOut p c round gate)
    (fun _ _ _ h hOk hStep => ⟨⟨h.1.1.move (step_move hStep), h.1.2.move h.1.1 hOk (step_move hStep)⟩,
      h.2.move h.1.2 (step_move hStep)⟩)
    (hLands.2 next hStep) hRest ⟨⟨hInv.move hMoved, hFlag.move hInv hLands.1 hMoved⟩, hLost⟩).2

theorem parked_passes {gate : RecoveryGate ι} {c : ι} (hInv : Inv gate) (hFlag : Flag maxRounds gate)
    (hParked : gate.call c = .parked) (hFree : gate.prober = none) :
    ∃ through, run (step maxRounds) gate [c, c] = some through ∧ through.call c = .passed := by
  have hOpen := hFlag.free hFree
  have hChanged : gate.openFlag.hasChanged c = true := by
    rw [Watch.hasChanged, bne_iff_ne]
    intro hCurrent
    rw [hInv.parked c hParked hCurrent] at hOpen
    cases hOpen
  let woken := { gate.goto c .subscribed with openFlag := gate.openFlag.borrowAndUpdate c }
  have hFirst : step maxRounds gate c = some woken := by simp [step, hParked, hChanged, woken]
  let through := { woken.goto c .passed with openFlag := woken.openFlag.borrowAndUpdate c }
  have hSecond : step maxRounds woken c = some through := by
    have hCall : woken.call c = .subscribed := call_goto_self gate c .subscribed
    have hValue : woken.openFlag.value = true := hOpen
    simp [step, hCall, hValue, through]
  refine ⟨through, ?_, call_goto_self woken c .passed⟩
  simp [run_cons, hFirst, hSecond]

theorem lost_send_disagrees {gate next : RecoveryGate ι} {c : ι} (hLost : ¬ SendLands maxRounds gate c)
    (hStep : step maxRounds gate c = some next) :
    ∃ rest bad, run (step maxRounds) next rest = some bad ∧ ¬ Agrees bad := by
  cases hCall : gate.call c with
  | elected =>
    simp only [SendLands, hCall, not_or, Nat.not_lt] at hLost
    obtain ⟨hFlag, hLeft⟩ := hLost
    simp only [step, hCall, Watch.send_of_not_lands hFlag, Option.some.injEq] at hStep
    subst next
    have hOpen : gate.openFlag.value = true := by simpa using (not_or.mp hFlag).2
    have hSleeps : step maxRounds { gate.goto c .closed with openFlag := gate.openFlag } c =
        some { gate.goto c (.sleeping (gate.rounds + 1)) with rounds := gate.rounds + 1 } := by
      simp [step, goto, Nat.not_lt.mpr hLeft]
    refine ⟨[c], _, by rw [run_cons, hSleeps]; rfl, fun hAgrees => ?_⟩
    have hShut := hAgrees.shut_while_sleeping c (gate.rounds + 1) (call_goto_self gate c _)
    exact Bool.false_ne_true (hShut.symm.trans hOpen)
  | woken =>
    simp only [SendLands, hCall] at hLost
    simp only [step, hCall, Watch.send_of_not_lands hLost, Option.some.injEq] at hStep
    subst next
    have hReturns : step maxRounds { gate.goto c .opened with openFlag := gate.openFlag } c =
        some { gate.goto c (.returned .retry) with prober := none } := by
      simp [step, goto]
    refine ⟨[c], _, by rw [run_cons, hReturns]; rfl, fun hAgrees => ?_⟩
    exact (not_or.mp hLost).2 (hAgrees.open_when_free rfl)
  | latching =>
    simp only [SendLands, hCall] at hLost
    simp only [step, hCall, Watch.send_of_not_lands hLost, Option.some.injEq] at hStep
    subst next
    have hReturns : step maxRounds { gate.goto c .latched with openFlag := gate.openFlag } c =
        some { gate.goto c (.returned .giveUp) with prober := none } := by
      simp [step, goto]
    refine ⟨[c], _, by rw [run_cons, hReturns]; rfl, fun hAgrees => ?_⟩
    exact (not_or.mp hLost).2 (hAgrees.open_when_free rfl)
  | _ => exact absurd (by simp [SendLands, hCall]) hLost

/-- In a run whose sends all land, flag and election agree, a caller that loses the election
to a sleeping prober stays until the round ends, and no parked caller is left behind. A run
with a lost send goes on into a disagreement. -/
theorem agrees_iff_sends_land (maxRounds : Nat) :
    (∀ (schedule : List ι) (gate : RecoveryGate ι),
      Within (step maxRounds) (SendLands maxRounds) new schedule →
      run (step maxRounds) new schedule = some gate →
      Agrees gate ∧
      (∀ p c round rest later, gate.call p = .sleeping round → gate.call c = .idle →
        Within (step maxRounds) (SendLands maxRounds) gate (c :: rest) →
        run (step maxRounds) gate (c :: rest) = some later → later.call p = .sleeping round →
        ∀ decision, later.call c ≠ .returned decision) ∧
      (∀ c, gate.call c = .parked → gate.prober = none →
        ∃ through, run (step maxRounds) gate [c, c] = some through ∧ through.call c = .passed)) ∧
    (∀ (schedule : List ι) (gate next : RecoveryGate ι) (c : ι),
      run (step maxRounds) new schedule = some gate → step maxRounds gate c = some next →
      ¬ SendLands maxRounds gate c →
      ∃ rest bad, run (step maxRounds) next rest = some bad ∧ ¬ Agrees bad) := by
  constructor
  · intro schedule gate hLands hRun
    obtain ⟨hInv, hFlag⟩ := allowed_run hLands hRun
    refine ⟨hFlag.agrees, ?_, fun c hParked hFree => parked_passes hInv hFlag hParked hFree⟩
    intro p c round rest later hSleeping hIdle hRest hLater hStill decision hReturned
    obtain ⟨_, hWaiting⟩ | hOver := held_out_of_loses hInv hFlag hSleeping hIdle hRest hLater
    · simp [hReturned, Call.Waiting] at hWaiting
    · simp [hStill] at hOver
  · intro schedule gate next c _ hStep hLost
    exact lost_send_disagrees hLost hStep

/-- A loser subscribed before the close, so the close lands and the round is slept behind a
closed flag. -/
theorem agrees_iff_sends_land_nonvacuous :
    ∃ gate : RecoveryGate Nat, run (step imapRecoveryRounds) new [0, 1, 1, 0, 1, 0] = some gate ∧
      gate.call 0 = .sleeping 1 ∧ gate.call 1 = .parked ∧ Agrees gate := by
  have hLands : Within (step imapRecoveryRounds) (SendLands imapRecoveryRounds)
      (new : RecoveryGate Nat) [0, 1, 1, 0, 1, 0] := by
    refine ⟨trivial, ?_⟩
    rintro _ ⟨⟩
    refine ⟨trivial, ?_⟩
    rintro _ ⟨⟩
    refine ⟨trivial, ?_⟩
    rintro _ ⟨⟩
    refine ⟨.inl (.inl (by decide)), ?_⟩
    rintro _ ⟨⟩
    refine ⟨trivial, ?_⟩
    rintro _ ⟨⟩
    exact ⟨trivial, fun _ _ => trivial⟩
  exact ⟨_, rfl, rfl, rfl, ((agrees_iff_sends_land imapRecoveryRounds).1 _ _ hLands rfl).1⟩

/-- With nobody subscribed the close is lost, the round is slept behind an open flag and a
loser passes at once. A close that only a departing loser received is never undone: the
next loser parks, the prober returns, and nothing wakes the loser. -/
theorem flag_disagrees_with_election :
    (∃ (schedule : List Nat) (gate : RecoveryGate Nat),
      run (step imapRecoveryRounds) new schedule = some gate ∧ gate.call 0 = .sleeping 1 ∧
      gate.openFlag.value = true ∧ gate.call 1 = .returned .retry) ∧
    (∃ (schedule : List Nat) (gate : RecoveryGate Nat),
      run (step imapRecoveryRounds) new schedule = some gate ∧ gate.prober = none ∧
      gate.openFlag.value = false ∧ gate.call 2 = .parked ∧ step imapRecoveryRounds gate 2 = none) := by
  constructor
  · exact ⟨[0, 0, 0, 1, 1, 1, 1, 1], _, rfl, rfl, rfl, rfl⟩
  · exact ⟨[0, 1, 1, 1, 0, 1, 1, 0, 0, 0, 2, 2, 2, 0], _, rfl, rfl, rfl, rfl, rfl⟩

end RecoveryGate

end Pigeon.Gate
