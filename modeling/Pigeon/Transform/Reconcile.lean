import Pigeon.Transform.Intake
import Pigeon.Transform.Backpressure

/-! # Every key of the pull set has one outcome

A key is in the set of dispatched keys from the moment it enters the queue, and from there it is waiting, in
conversion or done. The keys of the pull set that are not in the set when the loop ends are the ones that
never arrived, since the filter before the pull and the one at the queue let the same keys through.
-/
namespace Pigeon.Transform

open Library Pigeon.Core

set_option autoImplicit false

theorem outcomeFor_ne_failed (kind : InputFileType) : outcomeFor kind ≠ .failed := by
  cases kind <;> decide

/-- Neither filter has anything against the key. -/
def Plan.Relevant (plan : Plan) (key : Text) : Prop :=
  isAppleDoubleBasename key = false ∧ isExcelLockBasename key = false ∧ plan.isComplete key = false

instance (plan : Plan) (key : Text) : Decidable (plan.Relevant key) := inferInstanceAs (Decidable (_ ∧ _))

namespace Pipeline

def begun (s : Pipeline) : List Text := s.inFlight ++ s.outcomes.map FileOutcome.relativePath

def taken (s : Pipeline) : List Text := s.queue.map PendingFile.sourceKey ++ s.begun

def started (plan : Plan) (s : Pipeline) : List Text := (s.dispatch plan).inFlight.drop s.inFlight.length

def startedIn (plan : Plan) : Pipeline → List Event → List Text
  | _, [] => []
  | s, event :: events => s.started plan ++ ((step plan s event).map fun next => startedIn plan next events).getD []

structure Accounted (s : Pipeline) : Prop where
  taken : s.taken.Perm s.dispatched
  nodup : s.dispatched.Nodup
  failures : s.failures.total = s.outcomes.countP fun outcome => outcome.outcome == .failed

/-- What becomes of the accounts when the keys are reported on the way from one state to another. -/
structure Grows (plan : Plan) (keys : List Text) (s t : Pipeline) : Prop where
  accounted : s.Accounted → t.Accounted
  untripped : t.circuitBreakerTripped = false → s.circuitBreakerTripped = false
  mem : t.circuitBreakerTripped = false → ∀ key, plan.Relevant key → (key ∈ t.dispatched ↔ key ∈ s.dispatched ∨ key ∈ keys)

variable {plan : Plan} {s t u : Pipeline}

theorem Grows.refl (plan : Plan) (s : Pipeline) : Grows plan [] s s where
  accounted := id
  untripped := id
  mem _ _ _ := by rw [List.mem_nil_iff, or_false]

theorem Grows.trans {first second : List Text} (h : Grows plan first s t) (h' : Grows plan second t u) :
    Grows plan (first ++ second) s u where
  accounted hs := h'.accounted (h.accounted hs)
  untripped hOpen := h.untripped (h'.untripped hOpen)
  mem hOpen key hRelevant := by
    rw [h'.mem hOpen key hRelevant, h.mem (h'.untripped hOpen) key hRelevant, List.mem_append, or_assoc]

/-- The same when no conversion starts or ends on the way. -/
structure Enters (plan : Plan) (keys : List Text) (s t : Pipeline) : Prop extends Grows plan keys s t where
  begun : t.begun = s.begun

theorem Enters.foldl {σ ι : Type*} (pipeline : σ → Pipeline) {fold : σ → ι → σ} {keys : ι → List Text}
    (h : ∀ a item, Enters plan (keys item) (pipeline a) (pipeline (fold a item))) (items : List ι) (a : σ) :
    Enters plan (items.flatMap keys) (pipeline a) (pipeline (items.foldl fold a)) := by
  induction items generalizing a with
  | nil => exact ⟨Grows.refl plan (pipeline a), rfl⟩
  | cons item items ih =>
    have hFirst := h a item
    have hRest := ih (fold a item)
    exact ⟨hFirst.toGrows.trans hRest.toGrows, hRest.begun.trans hFirst.begun⟩

/-! ## The parts of an iteration -/

theorem enqueue_relevant (plan : Plan) (s : Pipeline) (key : Text) :
    plan.Relevant key ↔ (s.enqueue plan key).2 = .queued ∨ (s.enqueue plan key).2 = .alreadyDispatched := by
  rw [enqueue, Plan.Relevant]
  split_ifs with hAppleDouble hLockFile hComplete hDispatched
  · simp [hAppleDouble]
  · simp [hLockFile]
  · simp [hComplete]
  · simp [hAppleDouble, hLockFile, hComplete]
  · simp [hAppleDouble, hLockFile, hComplete]

theorem Accounted.enqueued (h : s.Accounted) {file : PendingFile} (hNew : file.sourceKey ∉ s.dispatched) :
    Accounted { s with dispatched := file.sourceKey :: s.dispatched, queue := s.queue ++ [file] } where
  taken := by
    change ((s.queue ++ [file]).map PendingFile.sourceKey ++ s.begun).Perm (file.sourceKey :: s.dispatched)
    rw [List.map_append, List.append_assoc]
    exact List.perm_middle.trans (h.taken.cons file.sourceKey)
  nodup := List.nodup_cons.mpr ⟨hNew, h.nodup⟩
  failures := h.failures

theorem receive_cases (plan : Plan) (s : Pipeline) (key : Text) :
    (s.circuitBreakerTripped = false ∧ plan.Relevant key ∧ key ∉ s.dispatched ∧
        s.receive plan key =
          { s with
            dispatched := key :: s.dispatched
            queue := s.queue ++ [⟨key, Text.joinPath plan.sourceDir key⟩] }) ∨
      ((s.circuitBreakerTripped = false → plan.Relevant key → key ∈ s.dispatched) ∧
        ∃ appleDouble lockFile, s.receive plan key =
          { s with skippedAppleDouble := appleDouble, skippedLockFile := lockFile }) := by
  rw [receive]
  split
  · rename_i hTripped
    refine .inr ⟨fun hOpen => ?_, s.skippedAppleDouble, s.skippedLockFile, rfl⟩
    rw [hTripped] at hOpen
    cases hOpen
  · rename_i hOpen
    rw [enqueue]
    split_ifs with hAppleDouble hLockFile hComplete hDispatched
    · exact .inr ⟨fun _ hRelevant => absurd hAppleDouble (by simp [hRelevant.1]), _, _, rfl⟩
    · exact .inr ⟨fun _ hRelevant => absurd hLockFile (by simp [hRelevant.2.1]), _, _, rfl⟩
    · exact .inr ⟨fun _ hRelevant => absurd hComplete (by simp [hRelevant.2.2]), _, _, rfl⟩
    · exact .inr ⟨fun _ _ => hDispatched, s.skippedAppleDouble, s.skippedLockFile, rfl⟩
    · rw [Bool.not_eq_true] at hOpen hAppleDouble hLockFile hComplete
      exact .inl ⟨hOpen, ⟨hAppleDouble, hLockFile, hComplete⟩, hDispatched, rfl⟩

theorem Enters.queued (plan : Plan) (file : PendingFile) (hNew : file.sourceKey ∉ s.dispatched) :
    Enters plan [file.sourceKey] s
      { s with dispatched := file.sourceKey :: s.dispatched, queue := s.queue ++ [file] } := by
  refine ⟨⟨fun h => h.enqueued hNew, id, fun _ key _ => ?_⟩, rfl⟩
  rw [List.mem_cons, List.mem_singleton, or_comm]

theorem Grows.ignored {key : Text} (hAccounted : s.Accounted → t.Accounted)
    (hTripped : t.circuitBreakerTripped = s.circuitBreakerTripped) (hDispatched : t.dispatched = s.dispatched)
    (hOld : s.circuitBreakerTripped = false → plan.Relevant key → key ∈ s.dispatched) : Grows plan [key] s t := by
  refine ⟨hAccounted, fun hOpen => hTripped.symm.trans hOpen, fun hOpen other hRelevant => ?_⟩
  rw [hDispatched, List.mem_singleton]
  constructor
  · exact .inl
  · rintro (hMem | rfl)
    · exact hMem
    · exact hOld (hTripped.symm.trans hOpen) hRelevant

theorem receive_enters (plan : Plan) (s : Pipeline) (key : Text) : Enters plan [key] s (s.receive plan key) := by
  obtain ⟨-, -, hNew, hEq⟩ | ⟨hOld, appleDouble, lockFile, hEq⟩ := receive_cases plan s key
  · rw [hEq]
    exact Enters.queued plan ⟨key, Text.joinPath plan.sourceDir key⟩ hNew
  · rw [hEq]
    exact ⟨Grows.ignored (fun h => ⟨h.taken, h.nodup, h.failures⟩) rfl rfl hOld, rfl⟩

theorem foldl_receive_enters (plan : Plan) (keys : List Text) (s : Pipeline) :
    Enters plan keys s (keys.foldl (receive plan) s) := by
  have hEnters := Enters.foldl id (receive_enters plan) keys s
  rwa [List.flatMap_singleton'] at hEnters

theorem enqueueVariant_enters (plan : Plan) (s : Pipeline) (file : PendingFile) :
    Enters plan [file.sourceKey] s (s.enqueueVariant file) := by
  rw [enqueueVariant]
  split
  · rename_i hOld
    exact ⟨Grows.ignored id rfl rfl fun _ _ => List.contains_iff_mem.mp hOld, rfl⟩
  · rename_i hNew
    exact Enters.queued plan file (mt List.contains_iff_mem.mpr hNew)

theorem spawn_spec (workers : Nat) (queue : List PendingFile) (inFlight : List Text) :
    ∃ files, queue = files ++ (spawn workers queue inFlight).1 ∧
      (spawn workers queue inFlight).2 = inFlight ++ files.map PendingFile.sourceKey := by
  induction queue generalizing inFlight with
  | nil => exact ⟨[], rfl, (List.append_nil inFlight).symm⟩
  | cons file queue ih =>
    rw [spawn]
    split
    · obtain ⟨files, hQueue, hInFlight⟩ := ih (inFlight ++ [file.sourceKey])
      refine ⟨file :: files, congrArg (file :: ·) hQueue, ?_⟩
      rw [hInFlight, List.append_assoc]
      rfl
    · exact ⟨[], rfl, (List.append_nil inFlight).symm⟩

theorem dispatch_spec (plan : Plan) (s : Pipeline) :
    s.queue.map PendingFile.sourceKey = s.started plan ++ (s.dispatch plan).queue.map PendingFile.sourceKey ∧
      (s.dispatch plan).inFlight = s.inFlight ++ s.started plan ∧ (s.dispatch plan).dispatched = s.dispatched ∧
      (s.dispatch plan).outcomes = s.outcomes ∧ (s.dispatch plan).failures = s.failures := by
  rw [started, dispatch]
  split
  · rw [List.drop_length, List.nil_append, List.append_nil]
    exact ⟨rfl, rfl, rfl, rfl, rfl⟩
  · obtain ⟨files, hQueue, hInFlight⟩ := spawn_spec plan.workers s.queue s.inFlight
    dsimp only
    rw [hInFlight, List.drop_left, ← List.map_append, ← hQueue]
    exact ⟨rfl, rfl, rfl, rfl, rfl⟩

theorem dispatch_begun (plan : Plan) (s : Pipeline) : (s.dispatch plan).begun.Perm (s.begun ++ s.started plan) := by
  obtain ⟨-, hInFlight, -, hOutcomes, -⟩ := dispatch_spec plan s
  rw [begun, begun, hInFlight, hOutcomes, List.append_assoc, List.append_assoc]
  exact List.perm_append_comm.append_left s.inFlight

theorem dispatch_grows (plan : Plan) (s : Pipeline) : Grows plan [] s (s.dispatch plan) := by
  obtain ⟨hQueue, -, hDispatched, hOutcomes, hFailures⟩ := dispatch_spec plan s
  refine ⟨fun h => ⟨?_, ?_, ?_⟩, fun hOpen => ?_, fun _ key _ => ?_⟩
  · rw [hDispatched]
    refine List.Perm.trans ?_ h.taken
    calc
      (s.dispatch plan).taken
        = (s.dispatch plan).queue.map PendingFile.sourceKey ++ (s.dispatch plan).begun := rfl
      List.Perm _ ((s.dispatch plan).queue.map PendingFile.sourceKey ++ (s.started plan ++ s.begun)) :=
        ((dispatch_begun plan s).trans List.perm_append_comm).append_left _
      List.Perm _ (s.started plan ++ ((s.dispatch plan).queue.map PendingFile.sourceKey ++ s.begun)) :=
        List.perm_append_comm_assoc _ _ _
      _ = s.taken := by rw [← List.append_assoc, ← hQueue, taken]
  · rw [hDispatched]
    exact h.nodup
  · rw [hFailures, hOutcomes]
    exact h.failures
  · rwa [tripped_dispatch] at hOpen
  · rw [hDispatched, List.mem_nil_iff, or_false]

theorem sample_accounts (s : Pipeline) (result : ProcessResult) :
    (s.sample result).dispatched = s.dispatched ∧ (s.sample result).outcomes = s.outcomes ∧
      (s.sample result).failures = s.failures := by
  simp only [sample]
  split_ifs
  · exact ⟨rfl, rfl, rfl⟩
  · exact ⟨rfl, rfl, rfl⟩
  · exact ⟨rfl, rfl, rfl⟩

theorem adjustPull_accounts (plan : Plan) (s : Pipeline) :
    (s.adjustPull plan).dispatched = s.dispatched ∧ (s.adjustPull plan).outcomes = s.outcomes ∧
      (s.adjustPull plan).failures = s.failures := by
  rw [adjustPull]
  split
  · split_ifs
    · exact ⟨rfl, rfl, rfl⟩
    · exact ⟨rfl, rfl, rfl⟩
    · exact ⟨rfl, rfl, rfl⟩
  · exact ⟨rfl, rfl, rfl⟩

theorem total_record (failures : FailureBreakdown) (stage : FailureStage) :
    (failures.record stage).total = failures.total + 1 := by
  cases stage with
  | pull | transcode | place | push =>
    simp only [FailureBreakdown.record, FailureBreakdown.total]
    omega

theorem record_accounts (hOutcome : plan.outcome ≠ .failed) (s : Pipeline) (key : Text) (result : ProcessResult) :
    (s.record plan key result).dispatched = s.dispatched ∧
      ∃ outcome : FileOutcome, outcome.relativePath = key ∧
        (s.record plan key result).outcomes = s.outcomes ++ [outcome] ∧
        (s.record plan key result).failures.total =
          s.failures.total + [outcome].countP fun outcome => outcome.outcome == .failed := by
  obtain ⟨stage, err⟩ | ⟨finalPaths | signals⟩ := result
  · exact ⟨rfl, _, rfl, rfl, total_record s.failures stage⟩
  · refine ⟨rfl, _, rfl, rfl, ?_⟩
    rw [List.countP_singleton, if_neg (by simpa using hOutcome)]
    rfl
  · exact ⟨rfl, _, rfl, rfl, rfl⟩

theorem complete_accounts (s : Pipeline) (index : Nat) (result : ProcessResult) :
    (s.complete index result).queue = s.queue ∧ (s.complete index result).inFlight = s.inFlight.eraseIdx index ∧
      (s.complete index result).dispatched = s.dispatched ∧ (s.complete index result).outcomes = s.outcomes ∧
      (s.complete index result).failures = s.failures ∧
      ((s.complete index result).circuitBreakerTripped = false → s.circuitBreakerTripped = false) := by
  rw [complete]
  obtain ⟨hQueue, hInFlight, -, -, hTripped⟩ := sample_spec { s with inFlight := s.inFlight.eraseIdx index } result
  obtain ⟨hDispatched, hOutcomes, hFailures⟩ := sample_accounts { s with inFlight := s.inFlight.eraseIdx index } result
  refine ⟨hQueue, hInFlight, hDispatched, hOutcomes, hFailures, fun hOpen => ?_⟩
  obtain ⟨hSame, -⟩ | ⟨hBefore, -, -⟩ := hTripped
  · exact hSame.symm.trans hOpen
  · exact hBefore

theorem joined_accounts (hOutcome : plan.outcome ≠ .failed) {index : Nat} {key : Text} (result : ProcessResult)
    (hFound : s.inFlight[index]? = some key) :
    Grows plan [] s (((s.complete index result).record plan key result).adjustPull plan) ∧
      (((s.complete index result).record plan key result).adjustPull plan).begun.Perm s.begun := by
  obtain ⟨hCompletedQueue, hCompletedInFlight, hCompletedDispatched, hCompletedOutcomes, hCompletedFailures, hUntripped⟩ :=
    complete_accounts s index result
  obtain ⟨hQueue, hInFlight, hTripped, -⟩ := joined_spec plan (s.complete index result) key result
  obtain ⟨hRecorded, outcome, hKey, hRecordedOutcomes, hRecordedFailures⟩ :=
    record_accounts hOutcome (s.complete index result) key result
  obtain ⟨hDispatched, hOutcomes, hFailures⟩ :=
    adjustPull_accounts plan ((s.complete index result).record plan key result)
  generalize ((s.complete index result).record plan key result).adjustPull plan = t at *
  rw [hRecorded, hCompletedDispatched] at hDispatched
  rw [hRecordedOutcomes, hCompletedOutcomes] at hOutcomes
  rw [← hFailures, hCompletedFailures] at hRecordedFailures
  rw [hCompletedQueue] at hQueue
  rw [hCompletedInFlight] at hInFlight
  have hBegun : t.begun.Perm s.begun := by
    obtain ⟨hIndex, rfl⟩ := List.getElem?_eq_some_iff.mp hFound
    rw [begun, begun, hInFlight, hOutcomes, List.map_append, List.map_singleton, hKey, ← List.append_assoc]
    apply List.perm_append_comm.trans
    rw [List.singleton_append, ← List.cons_append]
    exact (List.getElem_cons_eraseIdx_perm hIndex).append_right _
  refine ⟨⟨fun h => ⟨?_, ?_, ?_⟩, fun hOpen => hUntripped (hTripped ▸ hOpen), fun _ other _ => ?_⟩, hBegun⟩
  · rw [hDispatched, taken, hQueue]
    exact (hBegun.append_left _).trans h.taken
  · rw [hDispatched]
    exact h.nodup
  · rw [hRecordedFailures, hOutcomes, List.countP_append, h.failures]
  · rw [hDispatched, List.mem_nil_iff, or_false]

/-! ## Runs -/

theorem reports_accounts (plan : Plan) (s : Pipeline) {u : Pipeline} (hAccounted : (s.dispatch plan).Accounted → u.Accounted)
    (hTripped : u.circuitBreakerTripped = (s.dispatch plan).circuitBreakerTripped)
    (hDispatched : u.dispatched = (s.dispatch plan).dispatched) (hBegun : u.begun = (s.dispatch plan).begun)
    (keys : List Text) :
    Grows plan keys s (keys.foldl (receive plan) u) ∧
      (keys.foldl (receive plan) u).begun.Perm (s.begun ++ s.started plan) := by
  have hControl : Grows plan [] (s.dispatch plan) u := by
    refine ⟨hAccounted, fun hOpen => hTripped.symm.trans hOpen, fun _ key _ => ?_⟩
    rw [hDispatched, List.mem_nil_iff, or_false]
  have hEnters := foldl_receive_enters plan keys u
  refine ⟨((dispatch_grows plan s).trans hControl).trans hEnters.toGrows, ?_⟩
  rw [hEnters.begun, hBegun]
  exact dispatch_begun plan s

theorem step_accounts (hOutcome : plan.outcome ≠ .failed) {event : Event} (h : step plan s event = some t) :
    Grows plan event.reported s t ∧ t.begun.Perm (s.begun ++ s.started plan) := by
  obtain ⟨index, key, result, rfl, hFound, rfl⟩ | ⟨buffered, rfl, -, rfl⟩ | ⟨-, pid, closed, rfl⟩ := step_cases h
  · obtain ⟨hGrows, hSame⟩ := joined_accounts hOutcome result hFound
    exact ⟨(dispatch_grows plan s).trans hGrows, hSame.trans (dispatch_begun plan s)⟩
  · refine reports_accounts plan s ?_ ?_ ?_ ?_ buffered
    · exact fun h => ⟨h.taken, h.nodup, h.failures⟩
    · rfl
    · rfl
    · rfl
  · refine reports_accounts plan s ?_ ?_ ?_ ?_ event.reported
    · exact fun h => ⟨h.taken, h.nodup, h.failures⟩
    · rfl
    · rfl
    · rfl

theorem run_accounts (hOutcome : plan.outcome ≠ .failed) {events : List Event} (hRun : run (step plan) s events = some t) :
    Grows plan (events.flatMap Event.reported) s t ∧ t.begun.Perm (s.begun ++ startedIn plan s events) := by
  induction events generalizing s with
  | nil =>
    cases hRun
    rw [startedIn, List.append_nil]
    exact ⟨Grows.refl plan _, .refl _⟩
  | cons event events ih =>
    obtain ⟨next, hNext, hRest⟩ := run_cons_eq_some.mp hRun
    obtain ⟨hGrows, hBegun⟩ := step_accounts hOutcome hNext
    obtain ⟨hLater, hLaterBegun⟩ := ih hRest
    refine ⟨hGrows.trans hLater, ?_⟩
    rw [startedIn, hNext, Option.map_some, Option.getD_some, ← List.append_assoc]
    exact hLaterBegun.trans (hBegun.append_right _)

/-! ## After the loop -/

def undelivered (detail : Text → Text) (key : Text) : FileOutcome := ⟨key, [], .failed, some .pull, detail key⟩

theorem foldl_reconcile (detail : Text → Text) (keys : List Text) (s : Pipeline) :
    (keys.foldl (reconcile detail) s).outcomes =
        s.outcomes ++ (keys.filter fun key => decide (key ∉ s.dispatched)).map (undelivered detail) ∧
      (keys.foldl (reconcile detail) s).failures.total =
        s.failures.total + (keys.filter fun key => decide (key ∉ s.dispatched)).length := by
  induction keys generalizing s with
  | nil => exact ⟨(List.append_nil _).symm, rfl⟩
  | cons key keys ih =>
    rw [List.foldl_cons, List.filter_cons, reconcile]
    split
    · rename_i hDispatched
      rw [if_neg (by simpa using hDispatched)]
      exact ih s
    · rename_i hMissing
      rw [if_pos (by simpa using hMissing)]
      obtain ⟨hOutcomes, hFailures⟩ := ih
        { s with
          failures := s.failures.record .pull
          outcomes := s.outcomes ++ [undelivered detail key] }
      refine ⟨hOutcomes.trans ?_, hFailures.trans ?_⟩
      · rw [List.append_assoc]
        rfl
      · rw [total_record, List.length_cons]
        dsimp only
        omega

theorem Accounted.reconciled (h : s.Accounted) (detail : Text → Text) (keys : List Text) :
    (keys.foldl (reconcile detail) s).failures.total =
      (keys.foldl (reconcile detail) s).outcomes.countP fun outcome => outcome.outcome == .failed := by
  obtain ⟨hOutcomes, hFailures⟩ := foldl_reconcile detail keys s
  rw [hFailures, hOutcomes, List.countP_append, ← h.failures, List.countP_map, List.countP_eq_length.mpr]
  intro key _
  rfl

theorem Accounted.count_reconciled (h : s.Accounted) (hQueue : s.queue = []) (hInFlight : s.inFlight = [])
    (detail : Text → Text) (keys : List Text) (key : Text) :
    ((keys.foldl (reconcile detail) s).outcomes.map FileOutcome.relativePath).count key =
      if key ∈ s.dispatched then 1 else keys.count key := by
  have hDone : (s.outcomes.map FileOutcome.relativePath).Perm s.dispatched := by
    have hTaken := h.taken
    rwa [Pipeline.taken, begun, hQueue, hInFlight] at hTaken
  have hMissing (missing : List Text) : (missing.map (undelivered detail)).map FileOutcome.relativePath = missing := by
    rw [List.map_map]
    exact List.map_id missing
  rw [(foldl_reconcile detail keys s).1, List.map_append, hMissing, List.count_append, hDone.count_eq]
  split
  · rename_i hDispatched
    rw [List.count_eq_one_of_mem h.nodup hDispatched, List.count_eq_zero_of_not_mem]
    rintro hMem
    exact absurd hDispatched (by simpa using (List.mem_filter.mp hMem).2)
  · rename_i hAbsent
    rw [List.count_eq_zero_of_not_mem hAbsent, List.count_filter (by simpa using hAbsent), Nat.zero_add]

theorem Accounted.undelivered_of_mem (h : s.Accounted) {key : Text} (hMissing : key ∉ s.dispatched)
    (detail : Text → Text) (keys : List Text) {outcome : FileOutcome}
    (hOutcome : outcome ∈ (keys.foldl (reconcile detail) s).outcomes) (hPath : outcome.relativePath = key) :
    outcome = undelivered detail key := by
  rw [(foldl_reconcile detail keys s).1, List.mem_append] at hOutcome
  obtain hBefore | hAfter := hOutcome
  · have hTaken : key ∈ s.taken :=
      List.mem_append_right _ (List.mem_append_right _ (List.mem_map.mpr ⟨outcome, hBefore, hPath⟩))
    exact absurd (h.taken.mem_iff.mp hTaken) hMissing
  · obtain ⟨other, -, rfl⟩ := List.mem_map.mp hAfter
    exact congrArg (undelivered detail) hPath

theorem Accounted.ended (h : s.Accounted) (hFinished : (s.dispatch plan).Finished)
    (hOpen : s.circuitBreakerTripped = false) :
    (s.dispatch plan).Accounted ∧ (s.dispatch plan).queue = [] ∧ (s.dispatch plan).inFlight = [] ∧
      s.begun.Perm s.dispatched := by
  obtain ⟨hIdle, -, hEmpty⟩ := hFinished
  have hEnd := (dispatch_grows plan s).accounted h
  obtain ⟨-, hInFlight, hDispatched, hOutcomes, -⟩ := dispatch_spec plan s
  have hQueue : (s.dispatch plan).queue = [] := by
    obtain hEmpty | hTripped := hEmpty
    · exact hEmpty
    · rw [tripped_dispatch, hOpen] at hTripped
      cases hTripped
  refine ⟨hEnd, hQueue, hIdle, ?_⟩
  have hTaken := hEnd.taken
  rw [Pipeline.taken, begun, hQueue, hIdle, hOutcomes, hDispatched] at hTaken
  have hNone : s.inFlight = [] := (List.append_eq_nil_iff.mp (hInFlight.symm.trans hIdle)).1
  rw [begun, hNone]
  exact hTaken

end Pipeline

theorem assignCaseVariant_perm (localFold : Text → Text) (key : Text) (slots : List Slot) :
    ((assignCaseVariant localFold key slots).flatMap Slot.keys).Perm (key :: slots.flatMap Slot.keys) := by
  induction slots with
  | nil => exact .refl [key]
  | cons slot slots ih =>
    rw [assignCaseVariant]
    split
    · rw [List.flatMap_cons, Slot.insert, List.append_assoc]
      exact List.perm_middle
    · rw [List.flatMap_cons, List.flatMap_cons]
      exact (ih.append_left slot.keys).trans List.perm_middle

theorem assignCaseVariantSlots_perm (localFold : Text → Text) (variants : List Text) :
    (assignCaseVariantSlots localFold variants).flatten.Perm variants := by
  have hFold (keys : List Text) (slots : List Slot) :
      ((keys.foldl (fun slots key => assignCaseVariant localFold key slots) slots).flatMap Slot.keys).Perm
        (keys ++ slots.flatMap Slot.keys) := by
    induction keys generalizing slots with
    | nil => exact .refl _
    | cons key keys ih =>
      rw [List.foldl_cons]
      exact ((ih _).trans ((assignCaseVariant_perm localFold key slots).append_left keys)).trans List.perm_middle
  rw [assignCaseVariantSlots, ← List.flatMap_def]
  simpa using hFold variants []

namespace TransformJob

variable (job : TransformJob)

/-- The key reaches the run: it is on disk, it lands in a slot, or the pull reports it. -/
def Arrives (events : List Event) (key : Text) : Prop :=
  key ∈ job.alreadyOnDisk ∨
    (∃ slot keys, job.slots[slot]? = some keys ∧ key ∈ keys ∧ job.isFile (job.slotPath slot key) = true) ∨
    key ∈ events.flatMap Event.reported

theorem considerKey_toPull (selection : PullSelection) (key : Text) :
    (considerKey job.digest job.plan.sourcePath job.plan.inputFileType job.destinationGroups selection key).toPull =
      selection.toPull ++ [key].filter fun key => decide (job.loopPlan.Relevant key) := by
  rw [considerKey, List.filter_singleton]
  split_ifs with hAppleDouble hLockFile hComplete
  · rw [decide_eq_false fun hRelevant : job.loopPlan.Relevant key => absurd hAppleDouble (by simp [hRelevant.1])]
    exact (List.append_nil _).symm
  · rw [decide_eq_false fun hRelevant : job.loopPlan.Relevant key => absurd hLockFile (by simp [hRelevant.2.1])]
    exact (List.append_nil _).symm
  · rw [decide_eq_false fun hRelevant : job.loopPlan.Relevant key => Bool.false_ne_true (hRelevant.2.2.symm.trans hComplete)]
    exact (List.append_nil _).symm
  · rw [Bool.not_eq_true] at hAppleDouble hLockFile hComplete
    rw [decide_eq_true (show job.loopPlan.Relevant key from ⟨hAppleDouble, hLockFile, hComplete⟩)]
    rfl

theorem mem_filesToPull {key : Text} :
    key ∈ job.filesToPull ↔ key ∈ job.sourceRelativePaths ∧ job.loopPlan.Relevant key := by
  rw [filesToPull, selection, filesNeedingPull]
  dsimp only
  rw [foldl_append_part job.considerKey_toPull, List.nil_append, ← List.filter_flatMap, List.flatMap_singleton',
    List.mem_filter, decide_eq_true_eq]

theorem pull_set_shared_out :
    ((splitPullSet job.filesToPull job.selection.caseCollisions).1 ++ job.slots.flatten).Nodup ∧
      ∀ key, key ∈ (splitPullSet job.filesToPull job.selection.caseCollisions).1 ++ job.slots.flatten ↔
        key ∈ job.filesToPull := by
  have hCollisions : job.selection.caseCollisions = caseInsensitiveCollisions job.localFold job.filesToPull := rfl
  have hSlots : job.slots.flatten.Perm job.selection.caseCollisions :=
    (assignCaseVariantSlots_perm job.localFold _).trans (List.perm_insertionSort _ _)
  have hMem (key : Text) : key ∈ job.selection.caseCollisions ↔ key ∈ job.filesToPull ∧
      1 < job.filesToPull.countP fun other => job.localFold other == job.localFold key := by
    rw [hCollisions, caseInsensitiveCollisions, List.mem_dedup, List.mem_filter, decide_eq_true_eq]
  have hBulk (key : Text) : key ∈ (splitPullSet job.filesToPull job.selection.caseCollisions).1 ↔
      key ∈ job.filesToPull ∧ key ∉ job.selection.caseCollisions := by
    rw [splitPullSet, List.mem_filter, Bool.not_eq_true', ← Bool.not_eq_true, List.contains_iff_mem]
  constructor
  · refine List.nodup_append'.mpr ⟨List.nodup_iff_count_le_one.mpr fun key => ?_,
      hSlots.nodup_iff.mpr (hCollisions ▸ List.nodup_dedup _), fun key hFirst hSecond => ?_⟩
    · by_cases hKey : key ∈ (splitPullSet job.filesToPull job.selection.caseCollisions).1
      · obtain ⟨hPull, hApart⟩ := (hBulk key).mp hKey
        rw [hMem, not_and, Nat.not_lt] at hApart
        calc
          _ ≤ job.filesToPull.count key := List.Sublist.count_le key List.filter_sublist
          _ ≤ job.filesToPull.countP fun other => job.localFold other == job.localFold key :=
            List.countP_mono_left fun other _ hEq => by rw [eq_of_beq hEq, beq_self_eq_true]
          _ ≤ 1 := hApart hPull
      · rw [List.count_eq_zero_of_not_mem hKey]
        exact Nat.zero_le 1
    · exact ((hBulk key).mp hFirst).2 (hSlots.mem_iff.mp hSecond)
  · intro key
    rw [List.mem_append, hBulk, hSlots.mem_iff, hMem]
    tauto

def landed (slot : List Text × Nat) : List Text := slot.1.filter fun key => job.isFile (job.slotPath slot.2 key)

theorem collectVariant_enters (plan : Plan) (slot : Nat) (slotError : Option Text) (intake : Intake) (key : Text) :
    Pipeline.Enters plan ([key].filter fun key => job.isFile (job.slotPath slot key)) intake.pipeline
      (job.collectVariant slot slotError intake key).pipeline := by
  unfold collectVariant
  rw [List.filter_singleton]
  split
  · rename_i hLanded
    rw [hLanded]
    exact Pipeline.enqueueVariant_enters plan intake.pipeline ⟨key, job.slotPath slot key⟩
  · rename_i hMissing
    rw [Bool.not_eq_true] at hMissing
    rw [hMissing]
    split
    · exact ⟨.refl plan intake.pipeline, rfl⟩
    · exact ⟨.refl plan intake.pipeline, rfl⟩

theorem foldl_collectVariant_enters (plan : Plan) (slot : Nat) (slotError : Option Text) (keys : List Text)
    (intake : Intake) :
    Pipeline.Enters plan (job.landed (keys, slot)) intake.pipeline
      (keys.foldl (job.collectVariant slot slotError) intake).pipeline := by
  have hEnters := Pipeline.Enters.foldl Intake.pipeline (job.collectVariant_enters plan slot slotError) keys intake
  rwa [← List.filter_flatMap, List.flatMap_singleton'] at hEnters

theorem collectSlot_enters (plan : Plan) (intake : Intake) (slot : List Text × Nat) :
    Pipeline.Enters plan (job.landed slot) intake.pipeline (job.collectSlot intake slot).pipeline := by
  rw [collectSlot]
  split
  · rename_i summary _
    exact job.foldl_collectVariant_enters plan slot.2 none slot.1
      { intake with caseVariantSummary := intake.caseVariantSummary.add summary }
  · rename_i err _
    exact job.foldl_collectVariant_enters plan slot.2 (some err) slot.1 intake

theorem intake_enters :
    Pipeline.Enters job.loopPlan (job.alreadyOnDisk ++ job.slots.zipIdx.flatMap job.landed) (Pipeline.start [] 0 0)
      job.intake.pipeline := by
  have hScan := Pipeline.foldl_receive_enters job.loopPlan job.alreadyOnDisk (Pipeline.start [] 0 0)
  have hSlots := Pipeline.Enters.foldl Intake.pipeline (job.collectSlot_enters job.loopPlan) job.slots.zipIdx
    ⟨job.scan, fun _ => none, ⟨0, 0, 0, 0⟩⟩
  have hCounted : Pipeline.Grows job.loopPlan job.alreadyOnDisk (Pipeline.start [] 0 0) job.scan :=
    ⟨fun h => ⟨(hScan.accounted h).taken, (hScan.accounted h).nodup, (hScan.accounted h).failures⟩, hScan.untripped,
      hScan.mem⟩
  exact ⟨hCounted.trans hSlots.toGrows, hSlots.begun.trans hScan.begun⟩

theorem mem_landed_slots {key : Text} : key ∈ job.slots.zipIdx.flatMap job.landed ↔
    ∃ slot keys, job.slots[slot]? = some keys ∧ key ∈ keys ∧ job.isFile (job.slotPath slot key) = true := by
  rw [List.mem_flatMap]
  constructor
  · rintro ⟨⟨keys, slot⟩, hSlot, hLanded⟩
    rw [landed, List.mem_filter] at hLanded
    exact ⟨slot, keys, List.mk_mem_zipIdx_iff_getElem?.mp hSlot, hLanded⟩
  · rintro ⟨slot, keys, hSlot, hLanded⟩
    exact ⟨(keys, slot), List.mk_mem_zipIdx_iff_getElem?.mpr hSlot, List.mem_filter.mpr hLanded⟩

theorem intake_accounted : job.intake.pipeline.Accounted := job.intake_enters.accounted ⟨.refl _, .nil, rfl⟩

theorem run_accounts {events : List Event} {s : Pipeline}
    (hRun : run (Pipeline.step job.loopPlan) job.intake.pipeline events = some s) :
    s.Accounted ∧ s.begun.Perm (Pipeline.startedIn job.loopPlan job.intake.pipeline events) ∧
      (s.circuitBreakerTripped = false → ∀ key ∈ job.filesToPull, key ∈ s.dispatched ↔ job.Arrives events key) := by
  have hOutcome : job.loopPlan.outcome ≠ .failed := outcomeFor_ne_failed job.plan.inputFileType
  obtain ⟨hGrows, hBegun⟩ := Pipeline.run_accounts hOutcome hRun
  have hEnters := job.intake_enters
  rw [show job.intake.pipeline.begun = [] from hEnters.begun, List.nil_append] at hBegun
  refine ⟨hGrows.accounted job.intake_accounted, hBegun, fun hOpen key hKey => ?_⟩
  have hAll := hEnters.toGrows.trans hGrows
  rw [hAll.mem hOpen key (job.mem_filesToPull.mp hKey).2, List.mem_append, List.mem_append, mem_landed_slots, Arrives,
    or_assoc]
  exact or_iff_right List.not_mem_nil

/-- No key is converted twice. When the loop ends with the breaker as it was, every key of the pull set that
arrived is converted, the others are failures of the pull, and the counters agree with the outcomes. -/
theorem accounts_for_pull_set {events : List Event} {s : Pipeline}
    (hRun : run (Pipeline.step job.loopPlan) job.intake.pipeline events = some s) :
    (Pipeline.startedIn job.loopPlan job.intake.pipeline events).Nodup ∧ s.taken.Nodup ∧
      (∀ key ∈ job.sourceRelativePaths, ∀ t : Pipeline, key ∈ job.filesToPull ↔
        (t.enqueue job.loopPlan key).2 = .queued ∨ (t.enqueue job.loopPlan key).2 = .alreadyDispatched) ∧
      ((s.dispatch job.loopPlan).Finished → s.circuitBreakerTripped = false →
        (∀ err, job.finish (s.dispatch job.loopPlan) (.error err) = .error err) ∧
          ∀ pulled, ∃ summary, job.finish (s.dispatch job.loopPlan) (.ok pulled) = .ok summary ∧
            (summary.failures.total = summary.outcomes.countP fun outcome => outcome.outcome == .failed) ∧
            ∀ key ∈ job.filesToPull,
              (job.Arrives events key ∨ job.filesToPull.count key = 1 →
                (summary.outcomes.map FileOutcome.relativePath).count key = 1) ∧
              (job.Arrives events key ↔
                key ∈ Pipeline.startedIn job.loopPlan job.intake.pipeline events) ∧
              (¬ job.Arrives events key → ∀ outcome ∈ summary.outcomes, outcome.relativePath = key →
                outcome = Pipeline.undelivered job.detail key)) := by
  obtain ⟨hAccounted, hBegun, hArrived⟩ := job.run_accounts hRun
  have hTaken : s.taken.Nodup := hAccounted.taken.nodup_iff.mpr hAccounted.nodup
  refine ⟨hBegun.nodup_iff.mp hTaken.of_append_right, hTaken, fun key hKey t => ?_, fun hFinished hOpen => ?_⟩
  · rw [mem_filesToPull, and_iff_right hKey, Pipeline.enqueue_relevant job.loopPlan t]
  · obtain ⟨hEnd, hQueue, hInFlight, hDone⟩ := hAccounted.ended hFinished hOpen
    have hDispatched : (s.dispatch job.loopPlan).dispatched = s.dispatched :=
      (Pipeline.dispatch_spec job.loopPlan s).2.2.1
    refine ⟨fun err => rfl, fun pulled => ?_⟩
    rw [finish, Pipeline.tripped_dispatch, hOpen]
    refine ⟨_, rfl, hEnd.reconciled job.detail job.filesToPull, fun key hKey => ⟨?_, ?_, ?_⟩⟩
    · intro hOnce
      rw [← hArrived hOpen key hKey] at hOnce
      dsimp only
      rw [hEnd.count_reconciled hQueue hInFlight, hDispatched]
      split
      · rfl
      · rename_i hMissing
        exact hOnce.resolve_left hMissing
    · rw [← hArrived hOpen key hKey, ← hBegun.mem_iff, hDone.mem_iff]
    · intro hMissing outcome hOutcome hPath
      rw [← hArrived hOpen key hKey, ← hDispatched] at hMissing
      exact hEnd.undelivered_of_mem hMissing job.detail job.filesToPull hOutcome hPath

theorem exists_of_finish_map {s : Pipeline} {pullResult : Except Text RcloneLogSummary} {β : Type*} {f : TransformSummary → β}
    {b : β} (h : ((job.finish s pullResult).toOption.map f) = some b) :
    ∃ summary, job.finish s pullResult = .ok summary ∧ f summary = b := by
  cases hFinish : job.finish s pullResult with
  | error err =>
    rw [hFinish] at h
    cases h
  | ok summary =>
    rw [hFinish] at h
    exact ⟨summary, rfl, Option.some.inj h⟩

def pngDigests (text : Text) : Digest :=
  if text = hashInput "source:png/".toList "a.png".toList then ⟨"071838cac58ed7b2".toList, by decide⟩
  else if text = hashInput "source:png/".toList "b.png".toList then ⟨"5624078be3412ec8".toList, by decide⟩
  else if text = hashInput "source:png/".toList "Note.png".toList then ⟨"47a761c040d7551a".toList, by decide⟩
  else if text = hashInput "source:png/".toList "note.png".toList then ⟨"dfad95ca5df187e8".toList, by decide⟩
  else ⟨"cdb0222c31ec229f".toList, by decide⟩

/-- One file is done already, one is on disk, two share a local name, and the second of these is not pulled. -/
def pngJob : TransformJob where
  plan := ⟨"source:png/".toList, "/work".toList, .png, 4, by decide⟩
  concurrency := 1
  digest := pngDigests
  localFold := List.map Char.toLower
  existingDestinationFilenames := ["done-cdb0222c31ec229f.jpg".toList]
  alreadyOnDisk := ["a.png".toList]
  sourceRelativePaths :=
    ["a.png".toList, "._a.png".toList, "done.png".toList, "note.png".toList, "Note.png".toList, "b.png".toList]
  slotPull := fun slot _ => if slot = 0 then .ok ⟨1, 0, 9, 0⟩ else .error "rclone copy exited with status 1".toList
  isFile := fun path => path == "/work/.staging/case-variants/slot0/Note.png".toList

def pngEvents : List Event :=
  [.pidReceived (some 7), .received (some "a.png".toList), .joined 0 (.ok (.pushed ["a-071838cac58ed7b2.jpg".toList])),
    .joined 0 (.error (.transcode, "moov atom not found".toList)), .pullExited []]

theorem pngJob_ends :
    ∃ s, run (Pipeline.step pngJob.loopPlan) pngJob.intake.pipeline pngEvents = some s ∧
      (s.dispatch pngJob.loopPlan).Finished ∧ s.circuitBreakerTripped = false := by
  have hEnds : (run (Pipeline.step pngJob.loopPlan) pngJob.intake.pipeline pngEvents).map (fun s =>
      decide ((s.dispatch pngJob.loopPlan).Finished ∧ s.circuitBreakerTripped = false)) = some true := by
    decide +kernel
  obtain ⟨s, hRun, hCheck⟩ := Option.map_eq_some_iff.mp hEnds
  exact ⟨s, hRun, of_decide_eq_true hCheck⟩

theorem accounts_for_pull_set_two_slots :
    ∃ s, run (Pipeline.step pngJob.loopPlan) pngJob.intake.pipeline pngEvents = some s ∧
      ∃ summary, pngJob.finish (s.dispatch pngJob.loopPlan) (.ok ⟨0, 0, 0, 0⟩) = .ok summary ∧
        ∀ key ∈ pngJob.filesToPull, (summary.outcomes.map FileOutcome.relativePath).count key = 1 := by
  obtain ⟨s, hRun, hFinished, hOpen⟩ := pngJob_ends
  obtain ⟨-, -, -, hEnd⟩ := accounts_for_pull_set pngJob hRun
  obtain ⟨-, hPulled⟩ := hEnd hFinished hOpen
  obtain ⟨summary, hSummary, -, hKeys⟩ := hPulled ⟨0, 0, 0, 0⟩
  have hOnce : ∀ key ∈ pngJob.filesToPull, pngJob.filesToPull.count key = 1 := by decide +kernel
  exact ⟨s, hRun, summary, hSummary, fun key hKey => (hKeys key hKey).1 (.inr (hOnce key hKey))⟩

/-- The listing names one key twice, and its pull fails. -/
def doubledJob : TransformJob :=
  { pngJob with
    alreadyOnDisk := []
    sourceRelativePaths := ["b.png".toList, "b.png".toList]
    slotPull := fun _ _ => .error "rclone copy exited with status 1".toList }

/-- No key has an outcome when the bulk pull fails, and a key that the listing doubles has two. -/
theorem pull_set_lost_or_doubled :
    (∃ s, run (Pipeline.step pngJob.loopPlan) pngJob.intake.pipeline pngEvents = some s ∧
      (s.dispatch pngJob.loopPlan).Finished ∧ s.circuitBreakerTripped = false ∧ "b.png".toList ∈ pngJob.filesToPull ∧
        pngJob.finish (s.dispatch pngJob.loopPlan) (.error "rclone copy exited with status 1".toList) =
          .error "rclone copy exited with status 1".toList) ∧
      ∃ s summary, run (Pipeline.step doubledJob.loopPlan) doubledJob.intake.pipeline [.pullExited []] = some s ∧
        (s.dispatch doubledJob.loopPlan).Finished ∧ s.circuitBreakerTripped = false ∧
          "b.png".toList ∈ doubledJob.filesToPull ∧
            doubledJob.finish (s.dispatch doubledJob.loopPlan) (.ok ⟨0, 0, 0, 0⟩) = .ok summary ∧
              (summary.outcomes.map FileOutcome.relativePath).count "b.png".toList = 2 := by
  constructor
  · obtain ⟨s, hRun, hFinished, hOpen⟩ := pngJob_ends
    exact ⟨s, hRun, hFinished, hOpen, by decide +kernel, rfl⟩
  · have hEnds : (run (Pipeline.step doubledJob.loopPlan) doubledJob.intake.pipeline [.pullExited []]).map (fun s =>
        (decide ((s.dispatch doubledJob.loopPlan).Finished ∧ s.circuitBreakerTripped = false),
          ((doubledJob.finish (s.dispatch doubledJob.loopPlan) (.ok ⟨0, 0, 0, 0⟩)).toOption.map fun summary =>
            (summary.outcomes.map FileOutcome.relativePath).count "b.png".toList))) = some (true, some 2) := by
      decide +kernel
    obtain ⟨s, hRun, hCheck⟩ := Option.map_eq_some_iff.mp hEnds
    obtain ⟨hFinished, hOpen⟩ := of_decide_eq_true (Prod.mk.inj hCheck).1
    obtain ⟨summary, hSummary, hCount⟩ := doubledJob.exists_of_finish_map (Prod.mk.inj hCheck).2
    exact ⟨s, summary, hRun, hFinished, hOpen, by decide +kernel, hSummary, hCount⟩

end TransformJob

end Pigeon.Transform
