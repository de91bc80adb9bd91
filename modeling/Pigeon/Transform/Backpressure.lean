import Pigeon.Transform.Pipeline

/-! # The pull is not left paused

While the breaker has not tripped a paused pull always has a conversion to wait for, and the
last one of them resumes it. A breaker that trips over a long queue breaks this: nothing
shortens the queue any more, so a pull that is paused then stays paused.
-/
namespace Pigeon.Transform

open Library

set_option autoImplicit false

namespace Pipeline

/-- No conversion runs, none can start, and the pull that would end the run is paused. -/
def Stalled (s : Pipeline) : Prop :=
  s.inFlight = [] ∧ (s.queue = [] ∨ s.circuitBreakerTripped = true) ∧ s.pullFinished = false ∧ s.pullIsPaused = true

instance (s : Pipeline) : Decidable s.Stalled := by unfold Stalled; infer_instance

/-- A completion that finds the breaker tripped and the pull running leaves a backlog below
the high-water mark, or a queue within the low one and another conversion to wait for. -/
def Kept (plan : Plan) (before : Pipeline) : Event → Prop
  | .joined index result =>
    let s := (before.dispatch plan).complete index result
    s.circuitBreakerTripped = true → s.pullPid.isSome = true → s.pullFinished = false → s.pullIsPaused = false →
      s.backlog < plan.highWaterMark ∨ (s.queue.length ≤ plan.lowWaterMark ∧ s.inFlight ≠ [])
  | _ => True

def Advances : Event → Prop
  | .joined _ _ | .pullExited _ => True
  | _ => False

/-! ## The parts of an iteration -/

theorem spawn_length (workers : Nat) (queue : List PendingFile) (inFlight : List Text) :
    (spawn workers queue inFlight).1.length + (spawn workers queue inFlight).2.length = queue.length + inFlight.length := by
  induction queue generalizing inFlight with
  | nil => rfl
  | cons file queue ih =>
    rw [spawn]
    split
    · rw [ih, List.length_append, List.length_singleton, List.length_cons]
      omega
    · rfl

theorem spawn_busy {workers : Nat} (hWorkers : 0 < workers) (queue : List PendingFile) (inFlight : List Text)
    (hIdle : (spawn workers queue inFlight).2 = []) : (spawn workers queue inFlight).1 = [] := by
  induction queue generalizing inFlight with
  | nil => rfl
  | cons file queue ih =>
    rw [spawn] at hIdle ⊢
    split
    · rename_i hRoom
      rw [if_pos hRoom] at hIdle
      exact ih _ hIdle
    · rename_i hFull
      rw [if_neg hFull] at hIdle
      have hLength : inFlight.length = 0 := List.length_eq_zero_iff.mpr hIdle
      omega

section Parts

variable {plan : Plan} {s : Pipeline}

@[simp] theorem backlog_dispatch : (s.dispatch plan).backlog = s.backlog := by
  rw [dispatch]
  split
  · rfl
  · exact spawn_length _ _ _

@[simp] theorem tripped_dispatch : (s.dispatch plan).circuitBreakerTripped = s.circuitBreakerTripped := by
  rw [dispatch]
  split
  · rfl
  · rfl

@[simp] theorem paused_dispatch : (s.dispatch plan).pullIsPaused = s.pullIsPaused := by
  rw [dispatch]
  split
  · rfl
  · rfl

@[simp] theorem pid_dispatch : (s.dispatch plan).pullPid = s.pullPid := by
  rw [dispatch]
  split
  · rfl
  · rfl

@[simp] theorem finished_dispatch : (s.dispatch plan).pullFinished = s.pullFinished := by
  rw [dispatch]
  split
  · rfl
  · rfl

theorem dispatch_of_tripped (h : s.circuitBreakerTripped = true) : s.dispatch plan = s := by rw [dispatch, if_pos h]

theorem dispatch_idle (hIdle : (s.dispatch plan).inFlight = []) :
    (s.dispatch plan).queue = [] ∨ s.circuitBreakerTripped = true := by
  rw [dispatch] at hIdle ⊢
  split
  · exact .inr ‹_›
  · rename_i hOpen
    rw [if_neg hOpen] at hIdle
    exact .inl (spawn_busy (Nat.le_max_right _ 1) _ _ hIdle)

theorem receive_spec (plan : Plan) (s : Pipeline) (relativePath : Text) :
    (s.receive plan relativePath).inFlight = s.inFlight ∧ s.backlog ≤ (s.receive plan relativePath).backlog ∧
      (s.circuitBreakerTripped = true → (s.receive plan relativePath).queue = s.queue) ∧
      (s.receive plan relativePath).circuitBreakerTripped = s.circuitBreakerTripped ∧
      (s.receive plan relativePath).pullPid = s.pullPid ∧
      (s.receive plan relativePath).pullFinished = s.pullFinished ∧
      (s.receive plan relativePath).pullIsPaused = s.pullIsPaused := by
  rw [receive]
  split
  · exact ⟨rfl, Nat.le_refl _, fun _ => rfl, rfl, rfl, rfl, rfl⟩
  · rename_i hOpen
    rw [enqueue]
    split_ifs
    · exact ⟨rfl, Nat.le_refl _, fun _ => rfl, rfl, rfl, rfl, rfl⟩
    · exact ⟨rfl, Nat.le_refl _, fun _ => rfl, rfl, rfl, rfl, rfl⟩
    · exact ⟨rfl, Nat.le_refl _, fun _ => rfl, rfl, rfl, rfl, rfl⟩
    · exact ⟨rfl, Nat.le_refl _, fun _ => rfl, rfl, rfl, rfl, rfl⟩
    · refine ⟨rfl, ?_, fun hTripped => absurd hTripped hOpen, rfl, rfl, rfl, rfl⟩
      simp only [backlog, List.length_append, List.length_singleton]
      omega

theorem foldl_receive_spec (plan : Plan) (relativePaths : List Text) (s : Pipeline) :
    (relativePaths.foldl (receive plan) s).inFlight = s.inFlight ∧
      s.backlog ≤ (relativePaths.foldl (receive plan) s).backlog ∧
      (s.circuitBreakerTripped = true → (relativePaths.foldl (receive plan) s).queue = s.queue) ∧
      (relativePaths.foldl (receive plan) s).circuitBreakerTripped = s.circuitBreakerTripped ∧
      (relativePaths.foldl (receive plan) s).pullPid = s.pullPid ∧
      (relativePaths.foldl (receive plan) s).pullFinished = s.pullFinished ∧
      (relativePaths.foldl (receive plan) s).pullIsPaused = s.pullIsPaused := by
  induction relativePaths generalizing s with
  | nil => exact ⟨rfl, Nat.le_refl _, fun _ => rfl, rfl, rfl, rfl, rfl⟩
  | cons relativePath relativePaths ih =>
    obtain ⟨hInFlight, hBacklog, hQueue, hTripped, hPid, hFinished, hPaused⟩ := receive_spec plan s relativePath
    obtain ⟨hRestInFlight, hRestBacklog, hRestQueue, hRestTripped, hRestPid, hRestFinished, hRestPaused⟩ :=
      ih (s.receive plan relativePath)
    exact ⟨hRestInFlight.trans hInFlight, hBacklog.trans hRestBacklog,
      fun h => (hRestQueue (hTripped.trans h)).trans (hQueue h), hRestTripped.trans hTripped, hRestPid.trans hPid,
      hRestFinished.trans hFinished, hRestPaused.trans hPaused⟩

theorem sample_spec (s : Pipeline) (result : ProcessResult) :
    (s.sample result).queue = s.queue ∧ (s.sample result).inFlight = s.inFlight ∧
      (s.sample result).pullPid = s.pullPid ∧ (s.sample result).pullFinished = s.pullFinished ∧
      (((s.sample result).circuitBreakerTripped = s.circuitBreakerTripped ∧
          (s.sample result).pullIsPaused = s.pullIsPaused) ∨
        (s.circuitBreakerTripped = false ∧ (s.sample result).circuitBreakerTripped = true ∧
          (s.sample result).pullIsPaused = (s.pullIsPaused && s.pullPid.isNone))) := by
  simp only [sample]
  split
  · rename_i hOpen
    split
    · exact ⟨rfl, rfl, rfl, rfl, .inr ⟨hOpen.2.1, rfl, rfl⟩⟩
    · exact ⟨rfl, rfl, rfl, rfl, .inl ⟨rfl, rfl⟩⟩
  · exact ⟨rfl, rfl, rfl, rfl, .inl ⟨rfl, rfl⟩⟩

theorem record_spec (plan : Plan) (s : Pipeline) (relativePath : Text) (result : ProcessResult) :
    (s.record plan relativePath result).queue = s.queue ∧ (s.record plan relativePath result).inFlight = s.inFlight ∧
      (s.record plan relativePath result).circuitBreakerTripped = s.circuitBreakerTripped ∧
      (s.record plan relativePath result).pullPid = s.pullPid ∧
      (s.record plan relativePath result).pullFinished = s.pullFinished ∧
      (s.record plan relativePath result).pullIsPaused = s.pullIsPaused := by
  obtain ⟨_, _⟩ | ⟨_ | _⟩ := result
  · exact ⟨rfl, rfl, rfl, rfl, rfl, rfl⟩
  · exact ⟨rfl, rfl, rfl, rfl, rfl, rfl⟩
  · exact ⟨rfl, rfl, rfl, rfl, rfl, rfl⟩

theorem adjustPull_spec (plan : Plan) (s : Pipeline) :
    (s.adjustPull plan).queue = s.queue ∧ (s.adjustPull plan).inFlight = s.inFlight ∧
      (s.adjustPull plan).circuitBreakerTripped = s.circuitBreakerTripped ∧
      (s.adjustPull plan).pullPid = s.pullPid ∧ (s.adjustPull plan).pullFinished = s.pullFinished ∧
      (s.pullPid.isSome = true → s.pullFinished = false →
        ((s.adjustPull plan).pullIsPaused = true ↔
          (s.pullIsPaused = true ∧ plan.lowWaterMark < s.backlog) ∨
            (s.pullIsPaused = false ∧ plan.highWaterMark ≤ s.backlog))) ∧
      ((s.adjustPull plan).pullIsPaused = true → s.pullIsPaused = true ∨ s.pullPid.isSome = true ∧ s.pullFinished = false) := by
  rw [adjustPull]
  split
  · rename_i pid hPid hFinished
    split_ifs with hResume hPause
    · refine ⟨rfl, rfl, rfl, rfl, rfl, fun _ _ => ?_, nofun⟩
      simp [hResume.1, hResume.2]
    · refine ⟨rfl, rfl, rfl, rfl, rfl, fun _ _ => ?_, fun _ => .inr ⟨by rw [hPid]; rfl, hFinished⟩⟩
      simp [hPause.1, hPause.2]
    · refine ⟨rfl, rfl, rfl, rfl, rfl, fun _ _ => ?_, .inl⟩
      cases hPaused : s.pullIsPaused with
      | true => simpa [hPaused] using hResume
      | false => simpa [hPaused] using hPause
  · rename_i hGone
    refine ⟨rfl, rfl, rfl, rfl, rfl, fun hPid hFinished => ?_, .inl⟩
    obtain ⟨pid, hPid⟩ := Option.isSome_iff_exists.mp hPid
    exact absurd hFinished (hGone pid hPid)

theorem joined_spec (plan : Plan) (t : Pipeline) (relativePath : Text) (result : ProcessResult) :
    ((t.record plan relativePath result).adjustPull plan).queue = t.queue ∧
      ((t.record plan relativePath result).adjustPull plan).inFlight = t.inFlight ∧
      ((t.record plan relativePath result).adjustPull plan).circuitBreakerTripped = t.circuitBreakerTripped ∧
      ((t.record plan relativePath result).adjustPull plan).pullPid = t.pullPid ∧
      ((t.record plan relativePath result).adjustPull plan).pullFinished = t.pullFinished ∧
      ((t.record plan relativePath result).adjustPull plan).backlog = t.backlog ∧
      (t.pullPid.isSome = true → t.pullFinished = false →
        (((t.record plan relativePath result).adjustPull plan).pullIsPaused = true ↔
          (t.pullIsPaused = true ∧ plan.lowWaterMark < t.backlog) ∨
            (t.pullIsPaused = false ∧ plan.highWaterMark ≤ t.backlog))) ∧
      (((t.record plan relativePath result).adjustPull plan).pullIsPaused = true →
        t.pullIsPaused = true ∨ t.pullPid.isSome = true ∧ t.pullFinished = false) := by
  obtain ⟨hQueue, hInFlight, hTripped, hPid, hFinished, hPaused⟩ := record_spec plan t relativePath result
  obtain ⟨hNextQueue, hNextInFlight, hNextTripped, hNextPid, hNextFinished, hNextPaused, hCause⟩ :=
    adjustPull_spec plan (t.record plan relativePath result)
  have hBacklog : (t.record plan relativePath result).backlog = t.backlog := by
    rw [backlog, backlog, hQueue, hInFlight]
  rw [hPid, hFinished, hPaused, hBacklog] at hNextPaused
  rw [hPid, hFinished, hPaused] at hCause
  refine ⟨hNextQueue.trans hQueue, hNextInFlight.trans hInFlight, hNextTripped.trans hTripped, hNextPid.trans hPid,
    hNextFinished.trans hFinished, ?_, hNextPaused, hCause⟩
  rw [backlog, backlog, hNextQueue, hNextInFlight, hQueue, hInFlight]

end Parts

/-! ## Iterations -/

variable {plan : Plan}

inductive Move (plan : Plan) (s : Pipeline) : Event → Pipeline → Prop
  /-- Nothing finishes; the queue may grow while the breaker has not tripped. -/
  | waits (event : Event) (next : Pipeline) (hEvent : ∀ index result, event ≠ .joined index result)
      (hInFlight : next.inFlight = s.inFlight) (hBacklog : s.backlog ≤ next.backlog)
      (hQueue : s.circuitBreakerTripped = true → next.queue = s.queue)
      (hTripped : next.circuitBreakerTripped = s.circuitBreakerTripped)
      (hPid : s.pullPid.isSome = true → next.pullPid.isSome = true) (hFinished : next.pullFinished = s.pullFinished)
      (hPaused : next.pullIsPaused = s.pullIsPaused) : Move plan s event next
  | joined (index : Nat) (relativePath : Text) (result : ProcessResult) (hFound : s.inFlight[index]? = some relativePath) :
      Move plan s (.joined index result)
        (((s.complete index result).record plan relativePath result).adjustPull plan)
  | exited (buffered : List Text) (next : Pipeline) (hRunning : s.pullFinished = false) (hPaused : next.pullIsPaused = false) :
      Move plan s (.pullExited buffered) next

theorem step_joined {before : Pipeline} {index : Nat} {relativePath : Text} (result : ProcessResult)
    (hFound : (before.dispatch plan).inFlight[index]? = some relativePath) :
    step plan before (.joined index result) =
      some (((((before.dispatch plan).complete index result).record plan relativePath result).adjustPull plan)) := by
  have hRunning : ¬ (before.dispatch plan).Finished := by
    rintro ⟨hIdle, -, -⟩
    rw [hIdle] at hFound
    cases hFound
  simp only [step, if_neg hRunning, hFound]

/-- A completion, the end of the pull, or an iteration that only hands what is reported to the queue. -/
theorem step_cases {before next : Pipeline} {event : Event} (h : step plan before event = some next) :
    (∃ index relativePath result, event = .joined index result ∧
        (before.dispatch plan).inFlight[index]? = some relativePath ∧
        next = (((before.dispatch plan).complete index result).record plan relativePath result).adjustPull plan) ∨
      (∃ buffered, event = .pullExited buffered ∧ (before.dispatch plan).pullFinished = false ∧
        next = buffered.foldl (receive plan) { before.dispatch plan with pullFinished := true, pullIsPaused := false }) ∨
      ((∀ index result, event ≠ .joined index result) ∧ ∃ pid closed,
        next = event.reported.foldl (receive plan)
          { before.dispatch plan with
            pullPid := Option.or pid (before.dispatch plan).pullPid, copiedRxClosed := closed }) := by
  simp only [step] at h
  split at h
  · cases h
  · cases event with
    | progressTick =>
      cases h
      exact .inr (.inr ⟨nofun, none, _, rfl⟩)
    | pidReceived pid =>
      cases h
      exact .inr (.inr ⟨nofun, pid, _, rfl⟩)
    | joined index result =>
      dsimp only at h
      split at h
      · rename_i relativePath hFound
        cases h
        exact .inl ⟨index, relativePath, result, rfl, hFound, rfl⟩
      · cases h
    | received relativePath =>
      dsimp only at h
      split at h
      · split at h
        · cases h
          exact .inr (.inr ⟨nofun, none, _, rfl⟩)
        · cases h
          exact .inr (.inr ⟨nofun, none, _, rfl⟩)
      · cases h
    | pullExited buffered =>
      dsimp only at h
      split at h
      · rename_i hGuard
        cases h
        exact .inr (.inl ⟨buffered, rfl, hGuard.1, rfl⟩)
      · cases h

theorem step_move {before next : Pipeline} {event : Event} (h : step plan before event = some next) :
    Move plan (before.dispatch plan) event next := by
  obtain ⟨index, relativePath, result, rfl, hFound, rfl⟩ | ⟨buffered, rfl, hRunning, rfl⟩ |
    ⟨hEvent, pid, closed, rfl⟩ := step_cases h
  · exact .joined index relativePath result hFound
  · exact .exited buffered _ hRunning (foldl_receive_spec plan buffered _).2.2.2.2.2.2
  · obtain ⟨hInFlight, hBacklog, hQueue, hTripped, hPid, hFinished, hPaused⟩ := foldl_receive_spec plan event.reported
      { before.dispatch plan with
        pullPid := Option.or pid (before.dispatch plan).pullPid, copiedRxClosed := closed }
    refine .waits event _ hEvent hInFlight hBacklog hQueue hTripped (fun hSome => ?_) hFinished hPaused
    rw [hPid, Option.isSome_or, hSome, Bool.or_true]

/-- A paused pull has something to wait for. -/
structure Inv (plan : Plan) (s : Pipeline) : Prop where
  pid : s.pullIsPaused = true → s.pullPid.isSome = true
  running : s.pullIsPaused = true → s.pullFinished = false
  busy : s.pullIsPaused = true → s.circuitBreakerTripped = false → 0 < s.backlog
  draining : s.pullIsPaused = true → s.circuitBreakerTripped = true →
    s.queue.length ≤ plan.lowWaterMark ∧ s.inFlight ≠ []

theorem inv_of_not_paused {s : Pipeline} (h : s.pullIsPaused = false) : Inv plan s := by
  have hNot : ¬ s.pullIsPaused = true := by
    rw [h]
    decide
  exact ⟨fun hPaused => absurd hPaused hNot, fun hPaused => absurd hPaused hNot, fun hPaused => absurd hPaused hNot,
    fun hPaused => absurd hPaused hNot⟩

theorem Inv.dispatch {s : Pipeline} (h : Inv plan s) : Inv plan (s.dispatch plan) where
  pid hPaused := by simpa using h.pid (by simpa using hPaused)
  running hPaused := by simpa using h.running (by simpa using hPaused)
  busy hPaused hOpen := by simpa using h.busy (by simpa using hPaused) (by simpa using hOpen)
  draining hPaused hTripped := by
    rw [tripped_dispatch] at hTripped
    rw [dispatch_of_tripped hTripped] at hPaused ⊢
    exact h.draining hPaused hTripped

theorem Inv.joined {s : Pipeline} (h : Inv plan s) {index : Nat} {relativePath : Text} {result : ProcessResult}
    (hKept : (s.complete index result).circuitBreakerTripped = true → (s.complete index result).pullPid.isSome = true →
      (s.complete index result).pullFinished = false → (s.complete index result).pullIsPaused = false →
        (s.complete index result).backlog < plan.highWaterMark ∨
          ((s.complete index result).queue.length ≤ plan.lowWaterMark ∧ (s.complete index result).inFlight ≠ [])) :
    Inv plan (((s.complete index result).record plan relativePath result).adjustPull plan) := by
  obtain ⟨hQueue, hInFlight, hTripped, hPid, hFinished, hBacklog, hPaused, hCause⟩ :=
    joined_spec plan (s.complete index result) relativePath result
  obtain ⟨hSampledQueue, -, hSampledPid, hSampledFinished, hSampled⟩ :=
    sample_spec { s with inFlight := s.inFlight.eraseIdx index } result
  change (s.complete index result).queue = s.queue at hSampledQueue
  change (s.complete index result).pullPid = s.pullPid at hSampledPid
  change (s.complete index result).pullFinished = s.pullFinished at hSampledFinished
  change ((s.complete index result).circuitBreakerTripped = s.circuitBreakerTripped ∧
      (s.complete index result).pullIsPaused = s.pullIsPaused) ∨ (s.circuitBreakerTripped = false ∧
        (s.complete index result).circuitBreakerTripped = true ∧
          (s.complete index result).pullIsPaused = (s.pullIsPaused && s.pullPid.isNone)) at hSampled
  generalize s.complete index result = t at *
  generalize (t.record plan relativePath result).adjustPull plan = next at *
  -- The breaker that trips resumes a pull that is paused, so a pause from before has no trip in it.
  have hOld (hStill : t.pullIsPaused = true) :
      s.pullIsPaused = true ∧ t.circuitBreakerTripped = s.circuitBreakerTripped := by
    obtain ⟨hSame, hBefore⟩ | ⟨-, -, hResumed⟩ := hSampled
    · exact ⟨hBefore ▸ hStill, hSame⟩
    · rw [hResumed, Bool.and_eq_true, Option.isNone_iff_eq_none] at hStill
      have hKnown := h.pid hStill.1
      rw [hStill.2] at hKnown
      cases hKnown
  have hRuns (hNext : next.pullIsPaused = true) : t.pullPid.isSome = true ∧ t.pullFinished = false := by
    obtain hStill | hRunning := hCause hNext
    · have hBefore := (hOld hStill).1
      exact ⟨hSampledPid ▸ h.pid hBefore, hSampledFinished ▸ h.running hBefore⟩
    · exact hRunning
  constructor
  · intro hNext
    rw [hPid]
    exact (hRuns hNext).1
  · intro hNext
    rw [hFinished]
    exact (hRuns hNext).2
  · intro hNext _
    obtain ⟨hSome, hRunning⟩ := hRuns hNext
    have hHigh := plan.maxPendingDownloads_pos
    rw [hBacklog]
    obtain ⟨-, hAbove⟩ | ⟨-, hAbove⟩ := (hPaused hSome hRunning).mp hNext
    · omega
    · rw [Plan.highWaterMark] at hAbove
      omega
  · intro hNext hNextTripped
    obtain ⟨hSome, hRunning⟩ := hRuns hNext
    rw [hTripped] at hNextTripped
    rw [hQueue, hInFlight]
    obtain ⟨hStill, hAbove⟩ | ⟨hMade, hAbove⟩ := (hPaused hSome hRunning).mp hNext
    · obtain ⟨hBefore, hSame⟩ := hOld hStill
      have hShort := (h.draining hBefore (hSame ▸ hNextTripped)).1
      rw [← hSampledQueue] at hShort
      refine ⟨hShort, fun hIdle => ?_⟩
      rw [backlog, hIdle, List.length_nil] at hAbove
      omega
    · obtain hBelow | hWaits := hKept hNextTripped hSome hRunning hMade
      · omega
      · exact hWaits

theorem Inv.step {before next : Pipeline} {event : Event} (h : Inv plan before) (hKept : Kept plan before event)
    (hStep : step plan before event = some next) : Inv plan next := by
  have hDispatched := h.dispatch
  cases step_move hStep with
  | waits _ _ _ hInFlight hBacklog hQueue hTripped hPid hFinished hPaused =>
    constructor
    · intro hNext
      exact hPid (hDispatched.pid (hPaused ▸ hNext))
    · intro hNext
      rw [hFinished]
      exact hDispatched.running (hPaused ▸ hNext)
    · intro hNext hOpen
      exact Nat.lt_of_lt_of_le (hDispatched.busy (hPaused ▸ hNext) (hTripped ▸ hOpen)) hBacklog
    · intro hNext hTrip
      rw [hTripped] at hTrip
      rw [hQueue hTrip, hInFlight]
      exact hDispatched.draining (hPaused ▸ hNext) hTrip
  | joined index relativePath result hFound => exact hDispatched.joined hKept
  | exited buffered _ hRunning hPaused => exact inv_of_not_paused hPaused

theorem Inv.not_stalled {s : Pipeline} (h : Inv plan s) : ¬ s.Stalled := by
  rintro ⟨hIdle, hStuck, -, hPaused⟩
  cases hTripped : s.circuitBreakerTripped with
  | true => exact (h.draining hPaused hTripped).2 hIdle
  | false =>
    have hBusy := h.busy hPaused hTripped
    obtain hEmpty | hTrip := hStuck
    · rw [backlog, hEmpty, hIdle] at hBusy
      cases hBusy
    · rw [hTripped] at hTrip
      cases hTrip

theorem Inv.advances {s : Pipeline} (h : Inv plan s) (hRunning : ¬ (s.dispatch plan).Finished) :
    ∃ event next, Advances event ∧ Pipeline.step plan s event = some next := by
  cases hInFlight : (s.dispatch plan).inFlight with
  | cons relativePath rest =>
    have hFound : (s.dispatch plan).inFlight[0]? = some relativePath := by rw [hInFlight, List.getElem?_cons_zero]
    exact ⟨.joined 0 (.ok (.pushed [])), _, trivial, step_joined _ hFound⟩
  | nil =>
    have hStuck : (s.dispatch plan).queue = [] ∨ (s.dispatch plan).circuitBreakerTripped = true := by
      rw [tripped_dispatch]
      exact dispatch_idle hInFlight
    have hPull : (s.dispatch plan).pullFinished = false := by
      cases hFinished : (s.dispatch plan).pullFinished with
      | true => exact absurd ⟨hInFlight, hFinished, hStuck⟩ hRunning
      | false => rfl
    have hPaused : (s.dispatch plan).pullIsPaused = false := by
      cases hPaused : (s.dispatch plan).pullIsPaused with
      | true => exact absurd ⟨hInFlight, hStuck, hPull, hPaused⟩ h.dispatch.not_stalled
      | false => rfl
    refine ⟨.pullExited [], { s.dispatch plan with pullFinished := true, pullIsPaused := false }, trivial, ?_⟩
    simp only [Pipeline.step, if_neg hRunning, if_pos (And.intro hPull hPaused), List.foldl_nil]

/-! ## A pause that nothing ends -/

/-- With the breaker tripped over a queue above the low-water mark a pause outlasts every
conversion that is still in flight. -/
theorem stalls_of_paused {s : Pipeline} (hTripped : s.circuitBreakerTripped = true) (hPid : s.pullPid.isSome = true)
    (hRunning : s.pullFinished = false) (hPaused : s.pullIsPaused = true)
    (hQueue : s.inFlight ≠ [] → plan.lowWaterMark < s.queue.length) :
    ∃ later final, run (step plan) s later = some final ∧ final.Stalled := by
  induction hInFlight : s.inFlight generalizing s with
  | nil => exact ⟨[], s, rfl, hInFlight, .inr hTripped, hRunning, hPaused⟩
  | cons relativePath rest ih =>
    have hLong := hQueue (by rw [hInFlight]; exact List.cons_ne_nil _ _)
    let result : ProcessResult := .ok (.pushed [])
    have hFound : (s.dispatch plan).inFlight[0]? = some relativePath := by
      rw [dispatch_of_tripped hTripped, hInFlight, List.getElem?_cons_zero]
    have hStep := step_joined result hFound
    rw [dispatch_of_tripped hTripped] at hStep
    obtain ⟨hNextQueue, hNextInFlight, hNextTripped, hNextPid, hNextFinished, -, hNextPaused, -⟩ :=
      joined_spec plan (s.complete 0 result) relativePath result
    have hSame : (s.complete 0 result) = { s with inFlight := rest } := by
      rw [complete, sample, if_neg, hInFlight, List.eraseIdx_cons_zero]
      rintro ⟨-, hOpen, -⟩
      rw [hTripped] at hOpen
      cases hOpen
    rw [hSame] at hNextQueue hNextInFlight hNextTripped hNextPid hNextFinished hNextPaused hStep
    obtain ⟨later, final, hRun, hStalled⟩ := ih (hNextTripped.trans hTripped) (by rw [hNextPid]; exact hPid)
      (hNextFinished.trans hRunning) ((hNextPaused hPid hRunning).mpr (.inl ⟨hPaused, by rw [backlog]; dsimp only; omega⟩))
      (fun _ => by rw [hNextQueue]; exact hLong) hNextInFlight
    exact ⟨_ :: later, final, run_cons_eq_some.mpr ⟨_, hStep, hRun⟩, hStalled⟩

theorem stalls_of_not_kept {before next : Pipeline} {event : Event} (hNot : ¬ Kept plan before event)
    (hStep : step plan before event = some next) :
    ∃ later final, run (step plan) next later = some final ∧ final.Stalled := by
  cases step_move hStep with
  | waits _ _ hEvent =>
    cases event with
    | joined index result => exact absurd rfl (hEvent index result)
    | progressTick | pidReceived | received | pullExited => exact absurd trivial hNot
  | exited => exact absurd trivial hNot
  | joined index relativePath result hFound =>
    simp only [Kept, Classical.not_imp, not_or, not_and, not_not, Nat.not_lt] at hNot
    obtain ⟨hTripped, hPid, hRunning, hUnpaused, hHigh, hQueue⟩ := hNot
    obtain ⟨hNextQueue, hNextInFlight, hNextTripped, hNextPid, hNextFinished, -, hNextPaused, -⟩ :=
      joined_spec plan ((before.dispatch plan).complete index result) relativePath result
    refine stalls_of_paused (hNextTripped.trans hTripped) (by rw [hNextPid]; exact hPid) (hNextFinished.trans hRunning)
      ((hNextPaused hPid hRunning).mpr (.inr ⟨hUnpaused, hHigh⟩)) fun hBusy => ?_
    rw [hNextInFlight] at hBusy
    rw [hNextQueue]
    by_contra hShort
    exact hBusy (hQueue (Nat.not_lt.mp hShort))

/-- In every run whose completions are kept the pull is never left paused with nothing to
wait for, and the loop can always go on to its end; a completion that is not kept is followed
by a stall. -/
theorem never_stalls_of_kept (plan : Plan) :
    (∀ queue skippedAppleDouble skippedLockFile schedule s,
      Within (step plan) (Kept plan) (start queue skippedAppleDouble skippedLockFile) schedule →
        run (step plan) (start queue skippedAppleDouble skippedLockFile) schedule = some s →
          ¬ s.Stalled ∧ ((s.dispatch plan).Finished ∨ ∃ event next, Advances event ∧ step plan s event = some next)) ∧
      ∀ before event next, step plan before event = some next → ¬ Kept plan before event →
        ∃ later final, run (step plan) next later = some final ∧ final.Stalled := by
  constructor
  · intro queue skippedAppleDouble skippedLockFile schedule s hKept hRun
    have hInv : Inv plan s :=
      run_invariant (Inv plan) (fun _ _ _ h hKept hStep => h.step hKept hStep) hKept hRun (inv_of_not_paused rfl)
    refine ⟨hInv.not_stalled, ?_⟩
    obtain hEnded | hRunning := Classical.em (s.dispatch plan).Finished
    · exact .inl hEnded
    · exact .inr (hInv.advances hRunning)
  · intro before event next hStep hNot
    exact stalls_of_not_kept hNot hStep

theorem never_stalls_of_kept_paused : ∃ s : Pipeline, s.pullIsPaused = true ∧ ¬ s.Stalled := by
  let plan : Plan := ⟨1, 2, "/work/source".toList, .transcoded, fun _ => false, by decide⟩
  let queue : List PendingFile := [⟨['1'], ['1']⟩, ⟨['2'], ['2']⟩, ⟨['3'], ['3']⟩]
  let schedule : List Event := [.pidReceived (some 7), .joined 0 (.ok (.pushed []))]
  have hKept : Within (step plan) (Kept plan) (start queue 0 0) schedule := by
    refine ⟨trivial, ?_⟩
    rintro _ ⟨⟩
    refine ⟨fun hTripped => ?_, fun _ _ => trivial⟩
    revert hTripped
    decide
  have hEnds : (run (step plan) (start queue 0 0) schedule).map Pipeline.pullIsPaused = some true := by decide
  obtain ⟨s, hRun, hPaused⟩ := Option.map_eq_some_iff.mp hEnds
  exact ⟨s, hPaused, ((never_stalls_of_kept plan).1 queue 0 0 schedule s hKept hRun).1⟩

/-- One worker, a mark of four and twenty-five files on disk, the first twenty of which fail
with an unknown encoder: the breaker resumes the pull and the check pauses it again. -/
theorem tripped_breaker_stalls :
    ∃ (plan : Plan) (queue : List PendingFile) (schedule : List Event) (s : Pipeline),
      resolveMaxPendingDownloads plan.concurrency none none = plan.maxPendingDownloads ∧
        run (step plan) (start queue 0 0) schedule = some s ∧ s.Stalled := by
  let plan : Plan := ⟨1, 4, "/work/source".toList, .transcoded, fun _ => false, by decide⟩
  let queue : List PendingFile := (List.range 25).map fun n => ⟨Nat.toDigits 10 n, Nat.toDigits 10 n⟩
  let schedule : List Event :=
    .pidReceived (some 7) :: List.replicate 20 (.joined 0 (.error (.transcode, "Unknown encoder".toList)))
  have hEnds : (run (step plan) (start queue 0 0) schedule).map (fun s => decide s.Stalled) = some true := by
    decide +kernel
  obtain ⟨s, hRun, hCheck⟩ := Option.map_eq_some_iff.mp hEnds
  exact ⟨plan, queue, schedule, s, rfl, hRun, of_decide_eq_true hCheck⟩

end Pipeline

end Pigeon.Transform
