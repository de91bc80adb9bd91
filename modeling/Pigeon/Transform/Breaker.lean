import Pigeon.Transform.Reconcile

/-! # The circuit breaker over a whole run

The breaker looks at the first completions that are no skips, in the order in which they come. It is decided when the
window is full, and a run in which it trips only waits for what is under way.
-/
namespace Pigeon.Transform

open Library Pigeon.Core

set_option autoImplicit false

def Event.completion : Event → List ProcessResult
  | .joined _ result => [result]
  | _ => []

def completions (events : List Event) : List ProcessResult := events.flatMap Event.completion

theorem completion_of_not_joined {event : Event} (h : ∀ index result, event ≠ .joined index result) :
    event.completion = [] := by
  cases event with
  | joined index result => exact absurd rfl (h index result)
  | progressTick | pidReceived | received | pullExited => rfl

/-- The completions that say something about the converter. -/
def evidence (results : List ProcessResult) : List ProcessResult := results.filter fun result => !isSkip result

def isBreakerHit (result : ProcessResult) : Bool := (breakerHit result).isSome

def hitsInWindow (results : List ProcessResult) : Nat :=
  ((evidence results).take circuitBreakerSampleSize).countP isBreakerHit

/-- The window is full and nearly all of it failed in the same way. -/
def Systemic (results : List ProcessResult) : Prop :=
  circuitBreakerSampleSize ≤ (evidence results).length ∧ circuitBreakerTripThreshold ≤ hitsInWindow results

/-! ## The evidence -/

theorem evidence_append (results more : List ProcessResult) :
    evidence (results ++ more) = evidence results ++ evidence more := List.filter_append ..

theorem evidence_of_skip {result : ProcessResult} (hSkip : isSkip result = true) (results : List ProcessResult) :
    evidence (results ++ [result]) = evidence results := by
  rw [evidence_append, evidence, evidence, List.filter_singleton, hSkip]
  exact List.append_nil _

theorem evidence_of_not_skip {result : ProcessResult} (hSkip : isSkip result = false) (results : List ProcessResult) :
    evidence (results ++ [result]) = evidence results ++ [result] := by
  rw [evidence_append, evidence, evidence, List.filter_singleton, hSkip]
  rfl

/-- Once the window is full nothing enters it. -/
theorem hitsInWindow_of_full {results : List ProcessResult}
    (hFull : circuitBreakerSampleSize ≤ (evidence results).length) (more : List ProcessResult) :
    hitsInWindow (results ++ more) = hitsInWindow results := by
  rw [hitsInWindow, hitsInWindow, evidence_append, List.take_append_of_le_length hFull]

theorem full_append {results : List ProcessResult} (hFull : circuitBreakerSampleSize ≤ (evidence results).length)
    (more : List ProcessResult) : circuitBreakerSampleSize ≤ (evidence (results ++ more)).length := by
  rw [evidence_append, List.length_append]
  exact Nat.le_add_right_of_le hFull

theorem systemic_of_full {results : List ProcessResult} (hFull : circuitBreakerSampleSize ≤ (evidence results).length)
    (more : List ProcessResult) : Systemic (results ++ more) ↔ Systemic results := by
  rw [Systemic, Systemic, and_iff_right (full_append hFull more), and_iff_right hFull, hitsInWindow_of_full hFull]

/-- While the window is open every hit so far is in it. -/
theorem hitsInWindow_of_open {results : List ProcessResult} (hOpen : (evidence results).length ≤ circuitBreakerSampleSize) :
    hitsInWindow results = (evidence results).countP isBreakerHit := by
  rw [hitsInWindow, List.take_of_length_le hOpen]

namespace Pipeline

/-- What the breaker has seen of the completions so far. -/
structure Judged (results : List ProcessResult) (s : Pipeline) : Prop where
  samples : s.circuitBreakerSamples = min (evidence results).length circuitBreakerSampleSize
  hits : s.circuitBreakerMatches = hitsInWindow results
  tripped : s.circuitBreakerTripped = true ↔ Systemic results

def breakerState (s : Pipeline) : Nat × Nat × Bool :=
  (s.circuitBreakerSamples, s.circuitBreakerMatches, s.circuitBreakerTripped)

variable {plan : Plan} {s t : Pipeline} {results : List ProcessResult}

theorem Judged.congr (h : Judged results s) (hState : t.breakerState = s.breakerState) : Judged results t := by
  obtain ⟨hSamples, hRest⟩ := Prod.mk.inj hState
  obtain ⟨hHits, hTripped⟩ := Prod.mk.inj hRest
  exact ⟨hSamples.trans h.samples, hHits.trans h.hits, hTripped ▸ h.tripped⟩

/-! ## What an iteration does to the breaker -/

theorem breakerState_dispatch (plan : Plan) (s : Pipeline) : (s.dispatch plan).breakerState = s.breakerState := by
  rw [dispatch]
  split
  · rfl
  · rfl

theorem breakerState_receive (plan : Plan) (s : Pipeline) (relativePath : Text) :
    (s.receive plan relativePath).breakerState = s.breakerState := by
  obtain ⟨-, -, -, hEq⟩ | ⟨-, appleDouble, lockFile, hEq⟩ := receive_cases plan s relativePath
  · rw [hEq]
    rfl
  · rw [hEq]
    rfl

theorem breakerState_foldl_receive (plan : Plan) (relativePaths : List Text) (s : Pipeline) :
    (relativePaths.foldl (receive plan) s).breakerState = s.breakerState :=
  foldl_keeps breakerState (breakerState_receive plan) relativePaths s

theorem breakerState_enqueueVariant (s : Pipeline) (file : PendingFile) :
    (s.enqueueVariant file).breakerState = s.breakerState := by
  rw [enqueueVariant]
  split
  · rfl
  · rfl

theorem breakerState_record (plan : Plan) (s : Pipeline) (relativePath : Text) (result : ProcessResult) :
    (s.record plan relativePath result).breakerState = s.breakerState := by
  obtain ⟨_, _⟩ | ⟨_ | _⟩ := result
  · rfl
  · rfl
  · rfl

theorem breakerState_adjustPull (plan : Plan) (s : Pipeline) : (s.adjustPull plan).breakerState = s.breakerState := by
  rw [adjustPull]
  split
  · split_ifs
    · rfl
    · rfl
    · rfl
  · rfl

theorem Judged.of_evidence (h : Judged results s) {more : List ProcessResult} (hSame : evidence more = evidence results) :
    Judged more s := by
  refine ⟨?_, ?_, ?_⟩
  · rw [hSame]
    exact h.samples
  · rw [hitsInWindow, hSame]
    exact h.hits
  · rw [Systemic, hitsInWindow, hSame]
    exact h.tripped

theorem hits_of_not_skip (h : Judged results s) {result : ProcessResult} (hSkip : isSkip result = false)
    (hOpen : (evidence results).length < circuitBreakerSampleSize) :
    hitsInWindow (results ++ [result]) = s.circuitBreakerMatches + (breakerHit result).toList.length := by
  have hNext : (evidence (results ++ [result])).length ≤ circuitBreakerSampleSize := by
    rw [evidence_of_not_skip hSkip, List.length_append]
    exact hOpen
  rw [hitsInWindow_of_open hNext, evidence_of_not_skip hSkip, List.countP_append, h.hits,
    hitsInWindow_of_open hOpen.le, List.countP_singleton, isBreakerHit]
  cases breakerHit result with
  | none => rfl
  | some err => rfl

theorem Judged.sample (h : Judged results s) (result : ProcessResult) : Judged (results ++ [result]) (s.sample result) := by
  cases hSkip : isSkip result with
  | true =>
    have hSame : s.sample result = s := by
      rw [Pipeline.sample, if_neg]
      rintro ⟨hNot, -⟩
      rw [hSkip] at hNot
      cases hNot
    rw [hSame]
    exact h.of_evidence (evidence_of_skip hSkip results)
  | false =>
    obtain hOpen | hFull := Nat.lt_or_ge (evidence results).length circuitBreakerSampleSize
    · have hSamples : s.circuitBreakerSamples = (evidence results).length := h.samples.trans (Nat.min_eq_left hOpen.le)
      have hUntripped : s.circuitBreakerTripped = false := by
        rw [← Bool.not_eq_true, h.tripped]
        exact fun hSystemic => absurd hSystemic.1 (Nat.not_le.mpr hOpen)
      have hHits := hits_of_not_skip h hSkip hOpen
      have hLength : (evidence (results ++ [result])).length = (evidence results).length + 1 := by
        rw [evidence_of_not_skip hSkip, List.length_append]
        rfl
      have hTrips : circuitBreakerShouldTrip ((evidence results).length + 1) (hitsInWindow (results ++ [result])) = true ↔
          Systemic (results ++ [result]) := by
        rw [circuitBreakerShouldTrip, Bool.and_eq_true, beq_iff_eq, decide_eq_true_eq, Systemic, hLength]
        exact and_congr_left fun _ => ⟨fun hEq => hEq.ge, fun hLe => Nat.le_antisymm hOpen hLe⟩
      have hMin : min (evidence (results ++ [result])).length circuitBreakerSampleSize = (evidence results).length + 1 := by
        rw [hLength]
        exact Nat.min_eq_left hOpen
      simp only [Pipeline.sample]
      rw [if_pos ⟨hSkip, hUntripped, hSamples ▸ hOpen⟩, hSamples, ← hHits]
      split
      · rename_i hTrip
        exact ⟨hMin.symm, rfl, iff_of_true rfl (hTrips.mp hTrip)⟩
      · rename_i hTrip
        refine ⟨hMin.symm, rfl, iff_of_false ?_ (mt hTrips.mpr hTrip)⟩
        rw [hUntripped]
        exact Bool.false_ne_true
    · have hSamples : s.circuitBreakerSamples = circuitBreakerSampleSize := h.samples.trans (Nat.min_eq_right hFull)
      have hSame : s.sample result = s := by
        rw [Pipeline.sample, if_neg]
        rintro ⟨-, -, hLess⟩
        exact absurd hLess (Nat.not_lt.mpr hSamples.ge)
      rw [hSame]
      refine ⟨?_, ?_, ?_⟩
      · rw [hSamples, Nat.min_eq_right (full_append hFull [result])]
      · rw [hitsInWindow_of_full hFull]
        exact h.hits
      · rw [systemic_of_full hFull]
        exact h.tripped

theorem Judged.step (h : Judged results s) {event : Event} (hStep : Pipeline.step plan s event = some t) :
    Judged (results ++ event.completion) t := by
  have hDispatched : Judged results (s.dispatch plan) := h.congr (breakerState_dispatch plan s)
  obtain ⟨index, relativePath, result, rfl, -, rfl⟩ | ⟨buffered, rfl, -, rfl⟩ | ⟨hEvent, pid, closed, rfl⟩ :=
    step_cases hStep
  · have hLeft : Judged results { s.dispatch plan with inFlight := (s.dispatch plan).inFlight.eraseIdx index } :=
      hDispatched.congr rfl
    exact (hLeft.sample result).congr ((breakerState_adjustPull plan _).trans (breakerState_record plan _ _ result))
  · have hNone : (Event.pullExited buffered).completion = [] := rfl
    rw [hNone, List.append_nil]
    exact hDispatched.congr (breakerState_foldl_receive plan buffered _)
  · rw [completion_of_not_joined hEvent, List.append_nil]
    exact hDispatched.congr (breakerState_foldl_receive plan event.reported _)

theorem Judged.run {events : List Event} (h : Judged results s) (hRun : Library.run (Pipeline.step plan) s events = some t) :
    Judged (results ++ completions events) t := by
  induction events generalizing s results with
  | nil =>
    cases hRun
    rw [completions, List.flatMap_nil, List.append_nil]
    exact h
  | cons event events ih =>
    obtain ⟨next, hNext, hRest⟩ := run_cons_eq_some.mp hRun
    rw [completions, List.flatMap_cons, ← List.append_assoc]
    exact ih (h.step hNext) hRest

/-! ## Behind the trip -/

/-- Nothing is started or queued between the two states, and what left the in-flight set has an outcome. -/
structure Drains (plan : Plan) (s : Pipeline) (events : List Event) (t : Pipeline) : Prop where
  started : startedIn plan s events = []
  queue : t.queue = s.queue
  dispatched : t.dispatched = s.dispatched
  counted : ∃ ended, t.outcomes = s.outcomes ++ ended ∧ ended.length = (completions events).length ∧
    (t.inFlight ++ ended.map FileOutcome.relativePath).Perm s.inFlight

theorem receive_of_tripped (plan : Plan) (hTripped : s.circuitBreakerTripped = true) (relativePaths : List Text) :
    relativePaths.foldl (receive plan) s = s := by
  induction relativePaths with
  | nil => rfl
  | cons relativePath relativePaths ih => rwa [List.foldl_cons, receive, if_pos hTripped]

theorem started_of_tripped (plan : Plan) (hTripped : s.circuitBreakerTripped = true) : s.started plan = [] := by
  rw [started, dispatch_of_tripped hTripped, List.drop_length]

theorem record_outcomes (plan : Plan) (s : Pipeline) (relativePath : Text) (result : ProcessResult) :
    ∃ outcome : FileOutcome, outcome.relativePath = relativePath ∧
      (s.record plan relativePath result).outcomes = s.outcomes ++ [outcome] ∧
      (s.record plan relativePath result).dispatched = s.dispatched := by
  obtain ⟨_, _⟩ | ⟨_ | _⟩ := result
  · exact ⟨_, rfl, rfl, rfl⟩
  · exact ⟨_, rfl, rfl, rfl⟩
  · exact ⟨_, rfl, rfl, rfl⟩

theorem drains_joined (plan : Plan) {index : Nat} {relativePath : Text} (result : ProcessResult)
    (hFound : s.inFlight[index]? = some relativePath) :
    (((s.complete index result).record plan relativePath result).adjustPull plan).queue = s.queue ∧
      (((s.complete index result).record plan relativePath result).adjustPull plan).dispatched = s.dispatched ∧
      ∃ outcome : FileOutcome,
        (((s.complete index result).record plan relativePath result).adjustPull plan).outcomes = s.outcomes ++ [outcome] ∧
          ((((s.complete index result).record plan relativePath result).adjustPull plan).inFlight ++
            [outcome.relativePath]).Perm s.inFlight := by
  obtain ⟨hQueue, hInFlight, hDispatched, hOutcomes, -, -⟩ := complete_accounts s index result
  obtain ⟨outcome, hKey, hRecorded, hRecordedDispatched⟩ := record_outcomes plan (s.complete index result) relativePath result
  obtain ⟨hAdjustedDispatched, hAdjusted, -⟩ := adjustPull_accounts plan ((s.complete index result).record plan relativePath result)
  obtain ⟨hJoinedQueue, hJoinedInFlight, -⟩ := joined_spec plan (s.complete index result) relativePath result
  refine ⟨hJoinedQueue.trans hQueue, hAdjustedDispatched.trans (hRecordedDispatched.trans hDispatched), outcome, ?_, ?_⟩
  · rw [hAdjusted, hRecorded, hOutcomes]
  · obtain ⟨hIndex, rfl⟩ := List.getElem?_eq_some_iff.mp hFound
    rw [hJoinedInFlight, hInFlight, hKey]
    exact (List.perm_append_singleton _ _).trans (List.getElem_cons_eraseIdx_perm hIndex)

theorem drains_step (hTripped : s.circuitBreakerTripped = true) {event : Event} (h : step plan s event = some t) :
    t.queue = s.queue ∧ t.dispatched = s.dispatched ∧ ∃ ended, t.outcomes = s.outcomes ++ ended ∧
      ended.length = event.completion.length ∧ (t.inFlight ++ ended.map FileOutcome.relativePath).Perm s.inFlight := by
  have hSame : s.dispatch plan = s := dispatch_of_tripped hTripped
  obtain ⟨index, relativePath, result, rfl, hFound, rfl⟩ | ⟨buffered, rfl, -, rfl⟩ | ⟨hEvent, pid, closed, rfl⟩ :=
    step_cases h
  · rw [hSame] at hFound ⊢
    obtain ⟨hQueue, hDispatched, outcome, hOutcomes, hPerm⟩ := drains_joined plan result hFound
    exact ⟨hQueue, hDispatched, [outcome], hOutcomes, rfl, hPerm⟩
  · have hStay := receive_of_tripped (s := { s with pullFinished := true, pullIsPaused := false }) plan hTripped buffered
    rw [hSame, hStay]
    exact ⟨rfl, rfl, [], (List.append_nil _).symm, rfl, List.append_nil _ ▸ .refl _⟩
  · have hStay := receive_of_tripped (s := { s with pullPid := pid.or s.pullPid, copiedRxClosed := closed }) plan hTripped
      event.reported
    rw [hSame, hStay, completion_of_not_joined hEvent]
    exact ⟨rfl, rfl, [], (List.append_nil _).symm, rfl, List.append_nil _ ▸ .refl _⟩

theorem Judged.stays_tripped (h : Judged results s) (hTripped : s.circuitBreakerTripped = true) {event : Event}
    (hStep : Pipeline.step plan s event = some t) : t.circuitBreakerTripped = true := by
  have hSystemic := h.tripped.mp hTripped
  rw [(h.step hStep).tripped, systemic_of_full hSystemic.1]
  exact hSystemic

theorem Judged.drains (h : Judged results s) (hTripped : s.circuitBreakerTripped = true) {events : List Event}
    (hRun : Library.run (Pipeline.step plan) s events = some t) : Drains plan s events t := by
  induction events generalizing s results with
  | nil =>
    cases hRun
    exact ⟨rfl, rfl, rfl, [], (List.append_nil _).symm, rfl, List.append_nil _ ▸ .refl _⟩
  | cons event events ih =>
    obtain ⟨next, hNext, hRest⟩ := run_cons_eq_some.mp hRun
    obtain ⟨hQueue, hDispatched, first, hFirst, hFirstLength, hFirstPerm⟩ := drains_step hTripped hNext
    obtain ⟨hLaterStarted, hLaterQueue, hLaterDispatched, rest, hRestOutcomes, hRestLength, hRestPerm⟩ :=
      ih (h.step hNext) (h.stays_tripped hTripped hNext) hRest
    refine ⟨?_, hLaterQueue.trans hQueue, hLaterDispatched.trans hDispatched, first ++ rest, ?_, ?_, ?_⟩
    · rw [startedIn, started_of_tripped plan hTripped, hNext, Option.map_some, Option.getD_some, hLaterStarted]
      rfl
    · rw [hRestOutcomes, hFirst, List.append_assoc]
    · rw [List.length_append, hFirstLength, hRestLength, completions, completions, List.flatMap_cons, List.length_append]
    · refine List.Perm.trans ?_ hFirstPerm
      rw [List.map_append]
      refine (List.perm_append_comm.append_left _).trans ?_
      rw [← List.append_assoc]
      exact hRestPerm.append_right _

/-- What the breaker does in a run that has come through these events. -/
structure BreakerLaw (plan : Plan) (events : List Event) (s : Pipeline) : Prop where
  trips : s.circuitBreakerTripped = true ↔ Systemic (completions events)
  decides : ∀ event t, step plan s event = some t → s.circuitBreakerTripped = false → t.circuitBreakerTripped = true →
    ∃ index result, event = .joined index result ∧ isSkip result = false ∧
      (evidence (completions events)).length + 1 = circuitBreakerSampleSize
  settled : circuitBreakerSampleSize ≤ (evidence (completions events)).length →
    ∀ event t, step plan s event = some t → t.circuitBreakerTripped = s.circuitBreakerTripped
  stops : s.circuitBreakerTripped = true → ∀ more t, Library.run (step plan) s more = some t → Drains plan s more t

theorem Judged.settled (h : Judged results s) (hFull : circuitBreakerSampleSize ≤ (evidence results).length) {event : Event}
    (hStep : Pipeline.step plan s event = some t) : t.circuitBreakerTripped = s.circuitBreakerTripped := by
  rw [Bool.eq_iff_iff, (h.step hStep).tripped, h.tripped]
  exact systemic_of_full hFull _

theorem Judged.decides (h : Judged results s) {event : Event} (hStep : Pipeline.step plan s event = some t)
    (hOpen : s.circuitBreakerTripped = false) (hTripped : t.circuitBreakerTripped = true) :
    ∃ index result, event = .joined index result ∧ isSkip result = false ∧
      (evidence results).length + 1 = circuitBreakerSampleSize := by
  have hSystemic := (h.step hStep).tripped.mp hTripped
  have hLess : (evidence results).length < circuitBreakerSampleSize := by
    apply Nat.lt_of_not_le
    intro hFull
    rw [h.settled hFull hStep, hOpen] at hTripped
    cases hTripped
  have hSame (hNone : evidence (results ++ event.completion) = evidence results) : False := by
    rw [Systemic, hNone] at hSystemic
    exact absurd hSystemic.1 (Nat.not_le.mpr hLess)
  cases event with
  | progressTick | pidReceived | received | pullExited => exact (hSame (congrArg evidence (List.append_nil results))).elim
  | joined index result =>
    cases hSkip : isSkip result with
    | true => exact (hSame (evidence_of_skip hSkip results)).elim
    | false =>
      refine ⟨index, result, rfl, hSkip, ?_⟩
      have hFull := hSystemic.1
      rw [Event.completion, evidence_of_not_skip hSkip, List.length_append] at hFull
      exact Nat.le_antisymm hLess hFull

theorem Judged.breakerLaw {events : List Event} (h : Judged (completions events) s) : BreakerLaw plan events s where
  trips := h.tripped
  decides _ _ hStep hOpen hTripped := h.decides hStep hOpen hTripped
  settled hFull _ _ hStep := h.settled hFull hStep
  stops hTripped _ _ hRun := h.drains hTripped hRun

end Pipeline

/-! ## The job -/

namespace TransformJob

variable (job : TransformJob)

theorem breakerState_collectVariant (slot : Nat) (slotError : Option Text) (intake : Intake) (key : Text) :
    (job.collectVariant slot slotError intake key).pipeline.breakerState = intake.pipeline.breakerState := by
  unfold collectVariant
  split
  · exact Pipeline.breakerState_enqueueVariant _ _
  · cases slotError with
    | none => rfl
    | some err => rfl

theorem breakerState_collectSlot (intake : Intake) (slot : List Text × Nat) :
    (job.collectSlot intake slot).pipeline.breakerState = intake.pipeline.breakerState := by
  rw [collectSlot]
  split
  · exact foldl_keeps (fun intake : Intake => intake.pipeline.breakerState) (job.breakerState_collectVariant slot.2 none)
      slot.1 _
  · rename_i err _
    exact foldl_keeps (fun intake : Intake => intake.pipeline.breakerState)
      (job.breakerState_collectVariant slot.2 (some err)) slot.1 intake

/-- The breaker enters the loop with an empty window. -/
theorem intake_judged : Pipeline.Judged [] job.intake.pipeline := by
  have hFresh : Pipeline.Judged [] (Pipeline.start [] 0 0) :=
    ⟨rfl, rfl, iff_of_false Bool.false_ne_true fun hSystemic => absurd hSystemic.1 (by decide)⟩
  have hScan : job.scan.breakerState = (Pipeline.start [] 0 0).breakerState :=
    Pipeline.breakerState_foldl_receive job.loopPlan job.alreadyOnDisk (Pipeline.start [] 0 0)
  have hSlots : job.intake.pipeline.breakerState = job.scan.breakerState :=
    foldl_keeps (fun intake : Intake => intake.pipeline.breakerState) job.breakerState_collectSlot job.slots.zipIdx _
  exact hFresh.congr (hSlots.trans hScan)

/-- In every run of the job the breaker trips exactly on a full window of nearly equal failures, at the completion that
fills it, and from then on the run only ends what it has begun. -/
theorem breaker_over_runs {events : List Event} {s : Pipeline}
    (hRun : run (Pipeline.step job.loopPlan) job.intake.pipeline events = some s) :
    Pipeline.BreakerLaw job.loopPlan events s :=
  (job.intake_judged.run hRun).breakerLaw

theorem breaker_over_png_run :
    ∃ s, run (Pipeline.step pngJob.loopPlan) pngJob.intake.pipeline pngEvents = some s ∧
      Pipeline.BreakerLaw pngJob.loopPlan pngEvents s := by
  obtain ⟨s, hRun, -, -⟩ := pngJob_ends
  exact ⟨s, hRun, breaker_over_runs pngJob hRun⟩

end TransformJob

end Pigeon.Transform
