import Pigeon.EmailImport.Work

/-! # Every pending UID is counted once

What a UID or an attempt is worth is the same in the queue and in the hands of a worker, so a step
moves it and the sum over queue, workers and counted UIDs stays.
-/
namespace Pigeon.EmailImport

open Library Gate

set_option autoImplicit false

theorem keys_batchesFromPending (batchSize : Nat) (pending : List PendingMailbox) :
    (batchesFromPending batchSize pending).flatMap Batch.keys = pending.flatMap PendingMailbox.keys := by
  rw [batchesFromPending, List.flatMap_assoc]
  congr 1
  funext mailbox
  have hChunks : (splitIntoBatches mailbox.uids batchSize).flatten = mailbox.uids :=
    flatten_chunks (by omega) mailbox.uids
  rw [List.flatMap_map, PendingMailbox.keys]
  conv_rhs => rw [← hChunks]
  rw [List.map_flatten, List.flatMap_def]
  rfl

theorem keys_ne_nil_of_mem {batchSize : Nat} {pending : List PendingMailbox} {batch : Batch}
    (h : batch ∈ batchesFromPending batchSize pending) : batch.keys ≠ [] := by
  obtain ⟨mailbox, -, hBatch⟩ := List.mem_flatMap.mp h
  obtain ⟨uids, hUids, rfl⟩ := List.mem_map.mp hBatch
  rw [Batch.keys, Ne, List.map_eq_nil_iff]
  exact ne_nil_of_mem_chunks (by omega) hUids

def identityBatches (pendingByIdentity : List (List PendingMailbox)) (batchSize : Nat) : List (Nat × Batch) :=
  indexed (perIdentity pendingByIdentity batchSize)

theorem work_allBatches (pendingByIdentity : List (List PendingMailbox)) (batchSize : Nat) :
    ((allBatches pendingByIdentity batchSize).map QueueItem.work).Perm (identityBatches pendingByIdentity batchSize) := by
  rw [allBatches, List.map_map]
  refine (List.Perm.of_eq (List.map_id _)).trans (roundRobin_perm fun list hList => ?_)
  exact List.single_le_sum (fun n _ => n.zero_le) _ (List.mem_map_of_mem hList)

theorem keys_identityBatches (pendingByIdentity : List (List PendingMailbox)) (batchSize : Nat) :
    ((identityBatches pendingByIdentity batchSize).flatMap fun entry => entry.2.keys.map (Prod.mk entry.1)) =
      pendingKeys pendingByIdentity := by
  rw [identityBatches, perIdentity, pendingKeys, indexed, indexed, List.flatMap_assoc, List.flatMap_assoc,
    List.zipIdx_map, List.flatMap_map]
  congr 1
  funext entry
  have hKeys := congrArg (List.map (Prod.mk entry.2)) (keys_batchesFromPending batchSize entry.1)
  rw [List.map_flatMap, List.map_flatMap] at hKeys
  rw [List.flatMap_map, List.flatMap_map]
  exact hKeys

theorem keys_allBatches (pendingByIdentity : List (List PendingMailbox)) (batchSize : Nat) :
    ((allBatches pendingByIdentity batchSize).flatMap QueueItem.keys).Perm (pendingKeys pendingByIdentity) := by
  rw [← keys_identityBatches pendingByIdentity batchSize]
  refine List.Perm.trans (List.Perm.of_eq ?_) ((work_allBatches pendingByIdentity batchSize).flatMap_right _)
  rw [List.flatMap_map]
  rfl

theorem FailureBreakdown.total_merge (breakdown other : FailureBreakdown) :
    (breakdown.merge other).total = breakdown.total + other.total := by
  simp only [total, merge]
  omega

theorem BatchFailureStep.total_charge (uidCount : Nat) (breakdown : FailureBreakdown) (step : BatchFailureStep) :
    (step.charge uidCount breakdown).total = breakdown.total + uidCount := by
  cases step <;> simp only [charge, FailureBreakdown.total] <;> omega

namespace MessageRun

theorem pushAll_spec (answers : MessageRun) (outcome : BatchOutcome) (paths : List Path) :
    (answers.pushAll outcome paths).1.delivered = outcome.delivered ∧
      (answers.pushAll outcome paths).1.failed = outcome.failed ∧
      (answers.pushAll outcome paths).1.failureBreakdown = outcome.failureBreakdown := by
  induction paths generalizing outcome with
  | nil => exact ⟨rfl, rfl, rfl⟩
  | cons path paths ih =>
    rw [pushAll]
    cases answers.push path with
    | pushed => exact ih _
    | failed gated => exact ⟨rfl, rfl, rfl⟩

theorem outcome_spec (answers : MessageRun) :
    answers.outcome.delivered = (if answers.Delivered then 1 else 0) ∧
      answers.outcome.failed = (if answers.Delivered then 0 else 1) ∧
      answers.outcome.failureBreakdown.total = answers.outcome.failed := by
  suffices h : answers.outcome.failureBreakdown.total = answers.outcome.failed ∧
      (answers.outcome.delivered = 1 ∧ answers.outcome.failed = 0 ∨
        answers.outcome.delivered = 0 ∧ answers.outcome.failed = 1) by
    obtain ⟨hTotal, ⟨hDelivered, hFailed⟩ | ⟨hDelivered, hFailed⟩⟩ := h
    · have hYes : answers.Delivered := hDelivered
      rw [if_pos hYes, if_pos hYes]
      exact ⟨hDelivered, hFailed, hTotal⟩
    · have hNo : ¬ answers.Delivered := by
        rw [Delivered, hDelivered]
        exact Nat.zero_ne_one
      rw [if_neg hNo, if_neg hNo]
      exact ⟨hDelivered, hFailed, hTotal⟩
  rw [outcome]
  cases answers.emlExists with
  | false => exact ⟨rfl, .inr ⟨rfl, rfl⟩⟩
  | true =>
    obtain ⟨hDelivered, hFailed, hBreakdown⟩ :=
      answers.pushAll_spec { attachmentExtractionFailed := if answers.attachments.isNone then 1 else 0 } answers.objects
    cases hPushed :
        (answers.pushAll { attachmentExtractionFailed := if answers.attachments.isNone then 1 else 0 }
          answers.objects).2 with
    | false =>
      simp only [hPushed, hDelivered, hFailed, hBreakdown]
      exact ⟨rfl, .inr ⟨rfl, rfl⟩⟩
    | true =>
      simp only [hPushed, hDelivered, hFailed, hBreakdown]
      exact ⟨rfl, .inl ⟨rfl, rfl⟩⟩

end MessageRun

theorem foldl_merge_spec (outcomes : List BatchOutcome) (first : BatchOutcome) :
    (outcomes.foldl BatchOutcome.merge first).delivered = first.delivered + (outcomes.map BatchOutcome.delivered).sum ∧
      (outcomes.foldl BatchOutcome.merge first).failed = first.failed + (outcomes.map BatchOutcome.failed).sum ∧
      (outcomes.foldl BatchOutcome.merge first).failureBreakdown.total =
        first.failureBreakdown.total + (outcomes.map fun outcome => outcome.failureBreakdown.total).sum := by
  induction outcomes generalizing first with
  | nil => exact ⟨rfl, rfl, rfl⟩
  | cons outcome outcomes ih =>
    obtain ⟨hDelivered, hFailed, hTotal⟩ := ih (first.merge outcome)
    rw [List.foldl_cons, List.map_cons, List.sum_cons, List.map_cons, List.sum_cons, List.map_cons, List.sum_cons]
    refine ⟨hDelivered.trans (add_assoc _ _ _), hFailed.trans (add_assoc _ _ _), hTotal.trans ?_⟩
    rw [BatchOutcome.merge, FailureBreakdown.total_merge, add_assoc]

theorem sum_outcomes (runs : List MessageRun) :
    ((runs.map MessageRun.outcome).map BatchOutcome.delivered).sum =
        runs.countP (fun answers => decide answers.Delivered) ∧
      ((runs.map MessageRun.outcome).map BatchOutcome.failed).sum =
        runs.countP (fun answers => !decide answers.Delivered) ∧
      ((runs.map MessageRun.outcome).map fun outcome => outcome.failureBreakdown.total).sum =
        ((runs.map MessageRun.outcome).map BatchOutcome.failed).sum := by
  induction runs with
  | nil => exact ⟨rfl, rfl, rfl⟩
  | cons answers runs ih =>
    obtain ⟨hDelivered, hFailed, hTotal⟩ := answers.outcome_spec
    obtain ⟨hRestDelivered, hRestFailed, hRestTotal⟩ := ih
    simp only [List.map_cons, List.sum_cons, List.countP_cons, hRestDelivered, hRestFailed, hRestTotal, hTotal,
      hDelivered, hFailed]
    by_cases h : answers.Delivered <;> simp [h, add_comm]

theorem batchOutcome_spec (runs : List MessageRun) :
    (batchOutcome runs).delivered = runs.countP (fun answers => decide answers.Delivered) ∧
      (batchOutcome runs).failed = runs.countP (fun answers => !decide answers.Delivered) ∧
      (batchOutcome runs).failureBreakdown.total = (batchOutcome runs).failed := by
  obtain ⟨hDelivered, hFailed, hTotal⟩ := foldl_merge_spec (runs.map MessageRun.outcome) {}
  obtain ⟨hSumDelivered, hSumFailed, hSumTotal⟩ := sum_outcomes runs
  rw [batchOutcome, hDelivered, hFailed, hTotal, hSumTotal, hSumDelivered, hSumFailed]
  exact ⟨Nat.zero_add _, Nat.zero_add _, rfl⟩

theorem nodup_identityBatches {pendingByIdentity : List (List PendingMailbox)}
    (h : (pendingKeys pendingByIdentity).Nodup) (batchSize : Nat) :
    (identityBatches pendingByIdentity batchSize).Nodup := by
  rw [← keys_identityBatches pendingByIdentity batchSize, List.nodup_flatMap] at h
  refine h.2.imp_of_mem fun {work other} hWork _ hDisjoint hSame => ?_
  subst hSame
  obtain ⟨entry, hEntry, hEntryWork⟩ := List.mem_flatMap.mp hWork
  obtain ⟨batch, hBatch, rfl⟩ := List.mem_map.mp hEntryWork
  obtain ⟨pending, -, hPending⟩ := List.mem_map.mp (List.fst_mem_of_mem_zipIdx hEntry)
  rw [← hPending] at hBatch
  obtain ⟨key, hKey⟩ := List.exists_mem_of_ne_nil _ (keys_ne_nil_of_mem hBatch)
  have hMem : (entry.2, key) ∈ batch.keys.map (Prod.mk entry.2) := List.mem_map_of_mem hKey
  exact hDisjoint hMem hMem

namespace QueueItem

theorem length_keys (item : QueueItem) : item.keys.length = item.batch.uids.length := by
  rw [keys, List.length_map, Batch.keys, List.length_map]

end QueueItem

theorem eq_of_requeueOrNone {item requeued : QueueItem} (h : requeueOrNone item = some requeued) :
    ∃ attemptsRemaining, item.attemptsRemaining = attemptsRemaining + 1 ∧
      requeued = { item with attemptsRemaining } := by
  rw [requeueOrNone] at h
  split at h
  · cases h
  · rename_i attemptsRemaining hAttempts
    exact ⟨attemptsRemaining, hAttempts, (Option.some.inj h).symm⟩

namespace DeliveryJob

theorem counted_perm {item : QueueItem} {runs : List MessageRun} (hLength : runs.length = item.batch.uids.length) :
    (counted item runs true ++ counted item runs false).Perm item.keys := by
  have hZip : (item.keys.zip runs).map Prod.fst = item.keys :=
    List.map_fst_zip (by rw [hLength, item.length_keys])
  conv_rhs => rw [← hZip]
  rw [counted, counted, ← List.map_append]
  apply List.Perm.map _
  have hParts := List.filter_append_perm (fun entry : (Nat × LedgerKey) × MessageRun => decide entry.2.Delivered)
    (item.keys.zip runs)
  simpa using hParts

theorem length_counted {item : QueueItem} {runs : List MessageRun} (hLength : runs.length = item.batch.uids.length)
    (delivered : Bool) :
    (counted item runs delivered).length = runs.countP fun answers => decide answers.Delivered == delivered := by
  have hZip : (item.keys.zip runs).map Prod.snd = runs :=
    List.map_snd_zip (by rw [hLength, item.length_keys])
  conv_rhs => rw [← hZip]
  rw [counted, List.length_map, ← List.countP_eq_length_filter, List.countP_map]
  rfl

variable {workers : Nat} {s next : DeliveryJob workers} {w : Fin workers}

/-- Everything a step can do. -/
inductive Move (s : DeliveryJob workers) (w : Fin workers) : DeliveryJob workers → Prop
  | exit (hPhase : (s.worker w).phase = .ready) (hQueue : s.queue = []) :
      Move s w (s.put w { s.worker w with phase := .exited })
  | pop (item : QueueItem) (queue : List QueueItem) (hPhase : (s.worker w).phase = .ready)
      (hQueue : s.queue = item :: queue) :
      Move s w { s.put w { s.worker w with phase := .working item } with
        queue, attempts := item.work :: s.attempts }
  | hold (item : QueueItem) (phase : Phase) (connection : Option WorkerConnection)
      (hPhase : (s.worker w).phase = .working item)
      (hHeld : phase = .working item ∨ ∃ failure err, phase = .failing item failure err) :
      Move s w (s.put w { s.worker w with phase, connection })
  | deliver (item : QueueItem) (runs : List MessageRun) (hPhase : (s.worker w).phase = .working item)
      (hLength : runs.length = item.batch.uids.length) :
      Move s w { s.put w { s.worker w with
          phase := .ready, outcome := (s.worker w).outcome.merge (batchOutcome runs) } with
        delivered := counted item runs true ++ s.delivered, failed := counted item runs false ++ s.failed }
  | spend (item : QueueItem) (failure : BatchFailureStep) (err : Text) (attemptsRemaining : Nat)
      (hPhase : (s.worker w).phase = .failing item failure err)
      (hAttempts : item.attemptsRemaining = attemptsRemaining + 1) :
      Move s w (s.put w { s.worker w with phase := .requeueing { item with attemptsRemaining } })
  | drop (item : QueueItem) (failure : BatchFailureStep) (err : Text) (mayRetry : Bool)
      (hPhase : (s.worker w).phase = .failing item failure err) :
      Move s w { s.put w ((s.worker w).drop item failure mayRetry) with failed := item.keys ++ s.failed }
  | requeue (item : QueueItem) (hPhase : (s.worker w).phase = .requeueing item) :
      Move s w { s.put w { s.worker w with phase := .ready } with queue := s.queue ++ [item] }

theorem step_move {event : WorkerEvent} (h : step s (w, event) = some next) : Move s w next := by
  rw [step] at h
  dsimp only at h
  split at h
  case h_1 hPhase =>
    split at h
    · rename_i hQueue
      cases h
      exact .exit hPhase hQueue
    · rename_i hQueue
      cases h
      exact .pop _ _ hPhase hQueue
  case h_2 item err hPhase =>
    rw [Option.ite_none_right_eq_some] at h
    cases err with
    | none =>
      cases h.2
      exact .hold item _ _ hPhase (.inl hPhase)
    | some err =>
      cases h.2
      exact .hold item _ _ hPhase (.inr ⟨_, _, rfl⟩)
  case h_3 item err hPhase =>
    rw [Option.ite_none_right_eq_some] at h
    cases err with
    | none =>
      cases h.2
      exact .hold item _ _ hPhase (.inl hPhase)
    | some err =>
      cases h.2
      exact .hold item _ _ hPhase (.inr ⟨_, _, rfl⟩)
  case h_4 item result hPhase =>
    rw [Option.ite_none_right_eq_some] at h
    cases result with
    | ok runs =>
      obtain ⟨hLength, hNext⟩ := Option.ite_none_right_eq_some.mp h.2
      cases hNext
      exact .deliver item runs hPhase hLength
    | error err =>
      cases h.2
      exact .hold item _ _ hPhase (.inr ⟨_, _, rfl⟩)
  case h_5 item failure err decision hPhase =>
    split at h
    · rename_i requeued hRequeued
      cases h
      obtain ⟨-, hSome⟩ := Option.ite_none_right_eq_some.mp hRequeued
      obtain ⟨attemptsRemaining, hAttempts, rfl⟩ := eq_of_requeueOrNone hSome
      exact .spend item failure err attemptsRemaining hPhase hAttempts
    · cases h
      exact .drop item failure err _ hPhase
  case h_6 item hPhase =>
    cases h
    exact .requeue item hPhase
  case h_7 => cases h

/-- What a worker holds, when an item counts differently before and after its attempt. -/
def load (queued attempted : QueueItem → Nat) : Phase → Nat
  | .ready | .exited => 0
  | .working item | .failing item _ _ => attempted item
  | .requeueing item => queued item

def held (queued attempted : QueueItem → Nat) (queue : List QueueItem) (worker : Fin workers → ImportWorker) : Nat :=
  weight queued (fun worker => load queued attempted worker.phase) queue worker

section Held

variable (queued attempted : QueueItem → Nat)

theorem held_cons (item : QueueItem) (queue : List QueueItem) (worker : Fin workers → ImportWorker) :
    held queued attempted (item :: queue) worker = held queued attempted queue worker + queued item :=
  weight_cons item queue worker

theorem held_concat (item : QueueItem) (queue : List QueueItem) (worker : Fin workers → ImportWorker) :
    held queued attempted (queue ++ [item]) worker = held queued attempted queue worker + queued item :=
  weight_concat item queue worker

theorem held_update {phase : Phase} (hPhase : (s.worker w).phase = phase) (queue : List QueueItem)
    (worker : ImportWorker) :
    held queued attempted queue (Function.update s.worker w worker) + load queued attempted phase =
      held queued attempted queue s.worker + load queued attempted worker.phase := by
  rw [← hPhase]
  exact weight_update queue s.worker w worker

end Held

/-- What a move does to what is held and to the record, whatever the items count for. -/
inductive Shift (queued attempted : QueueItem → Nat) (s next : DeliveryJob workers) : Prop
  | keep (hHeld : held queued attempted next.queue next.worker = held queued attempted s.queue s.worker)
      (hDelivered : next.delivered = s.delivered) (hFailed : next.failed = s.failed) (hAttempts : next.attempts = s.attempts)
  | start (item : QueueItem)
      (hHeld : held queued attempted next.queue next.worker + queued item =
        held queued attempted s.queue s.worker + attempted item)
      (hDelivered : next.delivered = s.delivered) (hFailed : next.failed = s.failed)
      (hAttempts : next.attempts = item.work :: s.attempts)
  | deliver (item : QueueItem) (runs : List MessageRun) (hLength : runs.length = item.batch.uids.length)
      (hHeld : held queued attempted next.queue next.worker + attempted item = held queued attempted s.queue s.worker)
      (hDelivered : next.delivered = counted item runs true ++ s.delivered)
      (hFailed : next.failed = counted item runs false ++ s.failed) (hAttempts : next.attempts = s.attempts)
  | spend (item : QueueItem) (attemptsRemaining : Nat) (hRemaining : item.attemptsRemaining = attemptsRemaining + 1)
      (hHeld : held queued attempted next.queue next.worker + attempted item =
        held queued attempted s.queue s.worker + queued { item with attemptsRemaining })
      (hDelivered : next.delivered = s.delivered) (hFailed : next.failed = s.failed) (hAttempts : next.attempts = s.attempts)
  | drop (item : QueueItem)
      (hHeld : held queued attempted next.queue next.worker + attempted item = held queued attempted s.queue s.worker)
      (hDelivered : next.delivered = s.delivered) (hFailed : next.failed = item.keys ++ s.failed)
      (hAttempts : next.attempts = s.attempts)

theorem Move.shift (hMove : Move s w next) (queued attempted : QueueItem → Nat) : Shift queued attempted s next := by
  have hHeld {phase : Phase} (hPhase : (s.worker w).phase = phase) (queue : List QueueItem) (worker : ImportWorker) :=
    held_update queued attempted hPhase queue worker
  cases hMove with
  | exit hPhase hQueue => exact .keep (hHeld hPhase s.queue _) rfl rfl rfl
  | pop item queue hPhase hQueue =>
    refine .start item ?_ rfl rfl rfl
    have hPop := hHeld hPhase queue { s.worker w with phase := .working item }
    dsimp only [put, load] at hPop ⊢
    rw [hQueue, held_cons]
    omega
  | hold item phase connection hPhase hKept =>
    have hHold := hHeld hPhase s.queue { s.worker w with phase, connection }
    refine .keep ?_ rfl rfl rfl
    obtain rfl | ⟨failure, err, rfl⟩ := hKept
    · exact Nat.add_right_cancel hHold
    · exact Nat.add_right_cancel hHold
  | deliver item runs hPhase hLength => exact .deliver item runs hLength (hHeld hPhase s.queue _) rfl rfl rfl
  | spend item failure err attemptsRemaining hPhase hAttempts =>
    exact .spend item attemptsRemaining hAttempts (hHeld hPhase s.queue _) rfl rfl rfl
  | drop item failure err mayRetry hPhase => exact .drop item (hHeld hPhase s.queue _) rfl rfl rfl
  | requeue item hPhase =>
    refine .keep ?_ rfl rfl rfl
    have hRequeue := hHeld hPhase s.queue { s.worker w with phase := .ready }
    dsimp only [put, load] at hRequeue ⊢
    rw [held_concat]
    omega

theorem Move.keys (hMove : Move s w next) (key : Nat × LedgerKey) :
    next.delivered.count key + next.failed.count key +
        held (fun item => item.keys.count key) (fun item => item.keys.count key) next.queue next.worker =
      s.delivered.count key + s.failed.count key +
        held (fun item => item.keys.count key) (fun item => item.keys.count key) s.queue s.worker := by
  cases hMove.shift (fun item => item.keys.count key) (fun item => item.keys.count key) with
  | keep hHeld hDelivered hFailed hAttempts => rw [hHeld, hDelivered, hFailed]
  | start item hHeld hDelivered hFailed hAttempts => rw [Nat.add_right_cancel hHeld, hDelivered, hFailed]
  | deliver item runs hLength hHeld hDelivered hFailed hAttempts =>
    have hCounted := (counted_perm hLength).count_eq key
    rw [List.count_append] at hCounted
    rw [hDelivered, hFailed, List.count_append, List.count_append]
    omega
  | spend item attemptsRemaining hRemaining hHeld hDelivered hFailed hAttempts =>
    have hKeys : QueueItem.keys { item with attemptsRemaining } = item.keys := rfl
    rw [hKeys] at hHeld
    rw [Nat.add_right_cancel hHeld, hDelivered, hFailed]
  | drop item hHeld hDelivered hFailed hAttempts =>
    rw [hDelivered, hFailed, List.count_append]
    omega

/-- The attempts that an item stands for, with the one that taking it from the queue starts. -/
def startsLeft (work : Nat × Batch) (item : QueueItem) : Nat :=
  if item.work = work then item.attemptsRemaining + 1 else 0

def requeuesLeft (work : Nat × Batch) (item : QueueItem) : Nat :=
  if item.work = work then item.attemptsRemaining else 0

theorem Move.attempts (hMove : Move s w next) (work : Nat × Batch) :
    next.attempts.count work + held (startsLeft work) (requeuesLeft work) next.queue next.worker ≤
      s.attempts.count work + held (startsLeft work) (requeuesLeft work) s.queue s.worker := by
  cases hMove.shift (startsLeft work) (requeuesLeft work) with
  | keep hHeld hDelivered hFailed hAttempts => rw [hHeld, hAttempts]
  | start item hHeld hDelivered hFailed hAttempts =>
    have hStart : startsLeft work item = requeuesLeft work item + if item.work == work then 1 else 0 := by
      rw [startsLeft, requeuesLeft]
      by_cases hWork : item.work = work <;> simp [hWork]
    rw [hAttempts, List.count_cons]
    omega
  | deliver item runs hLength hHeld hDelivered hFailed hAttempts =>
    rw [hAttempts]
    omega
  | spend item attemptsRemaining hRemaining hHeld hDelivered hFailed hAttempts =>
    have hLeft : startsLeft work { item with attemptsRemaining } = requeuesLeft work item := by
      rw [startsLeft, requeuesLeft, hRemaining]
      rfl
    rw [hLeft] at hHeld
    rw [Nat.add_right_cancel hHeld, hAttempts]
  | drop item hHeld hDelivered hFailed hAttempts =>
    rw [hAttempts]
    omega

theorem Move.counters (hMove : Move s w next) : ∃ worker delivered failed,
    next.worker = Function.update s.worker w worker ∧
      next.delivered.length = s.delivered.length + delivered ∧ next.failed.length = s.failed.length + failed ∧
      worker.outcome.delivered = (s.worker w).outcome.delivered + delivered ∧
      worker.outcome.failed = (s.worker w).outcome.failed + failed ∧
      worker.outcome.failureBreakdown.total = (s.worker w).outcome.failureBreakdown.total + failed := by
  cases hMove with
  | exit hPhase hQueue => exact ⟨_, 0, 0, rfl, rfl, rfl, rfl, rfl, rfl⟩
  | pop item queue hPhase hQueue => exact ⟨_, 0, 0, rfl, rfl, rfl, rfl, rfl, rfl⟩
  | hold item phase connection hPhase hKept => exact ⟨_, 0, 0, rfl, rfl, rfl, rfl, rfl, rfl⟩
  | deliver item runs hPhase hLength =>
    obtain ⟨hDelivered, hFailed, hTotal⟩ := batchOutcome_spec runs
    refine ⟨_, (batchOutcome runs).delivered, (batchOutcome runs).failed, rfl, ?_, ?_, rfl, rfl, ?_⟩
    · rw [List.length_append, length_counted hLength, hDelivered, add_comm]
      simp
    · rw [List.length_append, length_counted hLength, hFailed, add_comm]
      simp
    · rw [← hTotal]
      exact FailureBreakdown.total_merge _ _
  | spend item failure err attemptsRemaining hPhase hAttempts => exact ⟨_, 0, 0, rfl, rfl, rfl, rfl, rfl, rfl⟩
  | drop item failure err mayRetry hPhase =>
    refine ⟨_, 0, item.batch.uids.length, rfl, rfl, ?_, rfl, rfl, ?_⟩
    · rw [List.length_append, item.length_keys, add_comm]
    · exact failure.total_charge _ _
  | requeue item hPhase => exact ⟨_, 0, 0, rfl, rfl, rfl, rfl, rfl, rfl⟩

structure Inv (pending : List (Nat × LedgerKey)) (works : List (Nat × Batch)) (s : DeliveryJob workers) : Prop where
  keys : ∀ key, s.delivered.count key + s.failed.count key +
    held (fun item => item.keys.count key) (fun item => item.keys.count key) s.queue s.worker = pending.count key
  attempts : ∀ work, s.attempts.count work + held (startsLeft work) (requeuesLeft work) s.queue s.worker ≤
    (batchRetries + 1) * works.count work
  delivered : ∑ w, (s.worker w).outcome.delivered = s.delivered.length
  failed : ∑ w, (s.worker w).outcome.failed = s.failed.length
  breakdown : ∀ w, (s.worker w).outcome.failureBreakdown.total = (s.worker w).outcome.failed
  drained : (∀ w, (s.worker w).phase = .exited) → s.queue = []

variable {pending : List (Nat × LedgerKey)} {works : List (Nat × Batch)}

theorem Move.drained (hMove : Move s w next) (hExited : ∀ other, (next.worker other).phase = .exited) :
    next.queue = [] := by
  have hPhase := hExited w
  cases hMove with
  | exit _ hQueue => exact hQueue
  | hold item phase connection _ hKept =>
    dsimp only [put] at hPhase
    rw [Function.update_self] at hPhase
    obtain rfl | ⟨failure, err, rfl⟩ := hKept
    all_goals cases hPhase
  | _ =>
    dsimp only [put, ImportWorker.drop] at hPhase
    rw [Function.update_self] at hPhase
    cases hPhase

theorem Inv.move (hInv : Inv pending works s) (hMove : Move s w next) : Inv pending works next := by
  obtain ⟨worker, delivered, failed, hWorker, hDelivered, hFailed, hOutcome, hOutcomeFailed, hTotal⟩ := hMove.counters
  refine ⟨fun key => (hMove.keys key).trans (hInv.keys key),
    fun work => (hMove.attempts work).trans (hInv.attempts work), ?_, ?_, fun other => ?_, hMove.drained⟩
  · have hSum := sum_held_update (fun worker : ImportWorker => worker.outcome.delivered) s.worker w worker
    have hBefore := hInv.delivered
    rw [hWorker, hDelivered]
    omega
  · have hSum := sum_held_update (fun worker : ImportWorker => worker.outcome.failed) s.worker w worker
    have hBefore := hInv.failed
    rw [hWorker, hFailed]
    omega
  · rw [hWorker]
    by_cases hSame : other = w
    · subst hSame
      rw [Function.update_self, hTotal, hOutcomeFailed, hInv.breakdown]
    · rw [Function.update_of_ne hSame]
      exact hInv.breakdown other

theorem sum_startsLeft {items : List QueueItem} {attempts : Nat}
    (hAttempts : ∀ item ∈ items, item.attemptsRemaining = attempts) (work : Nat × Batch) :
    (items.map (startsLeft work)).sum = (attempts + 1) * (items.map QueueItem.work).count work := by
  induction items with
  | nil => rfl
  | cons item items ih =>
    have hRest := ih fun other hOther => hAttempts other (List.mem_cons_of_mem item hOther)
    rw [List.map_cons, List.sum_cons, hRest, startsLeft, hAttempts item List.mem_cons_self, List.map_cons, List.count_cons]
    by_cases hWork : item.work = work <;> simp [hWork, mul_add, add_comm]

section Start

variable (pendingByIdentity : List (List PendingMailbox)) (batchSize : Nat)

theorem held_start (queued attempted : QueueItem → Nat) :
    held queued attempted (start workers pendingByIdentity batchSize).queue
        (start workers pendingByIdentity batchSize).worker =
      ((allBatches pendingByIdentity batchSize).map queued).sum :=
  weight_of_empty _ fun _ => rfl

theorem attemptsRemaining_of_mem {item : QueueItem} (h : item ∈ allBatches pendingByIdentity batchSize) :
    item.attemptsRemaining = batchRetries := by
  obtain ⟨entry, -, rfl⟩ := List.mem_map.mp h
  rfl

theorem inv_start (hWorkers : 0 < workers) :
    Inv (pendingKeys pendingByIdentity) (identityBatches pendingByIdentity batchSize)
      (start workers pendingByIdentity batchSize) where
  keys key := by
    rw [held_start, ← (keys_allBatches pendingByIdentity batchSize).count_eq, List.count_flatMap]
    exact Nat.zero_add _
  attempts work := by
    rw [held_start, ← (work_allBatches pendingByIdentity batchSize).count_eq,
      sum_startsLeft fun item => attemptsRemaining_of_mem pendingByIdentity batchSize]
    exact (Nat.zero_add _).le
  delivered := Finset.sum_eq_zero fun _ _ => rfl
  failed := Finset.sum_eq_zero fun _ _ => rfl
  breakdown _ := rfl
  drained hExited := by cases hExited ⟨0, hWorkers⟩

end Start

theorem Inv.summary (hInv : Inv pending works s) :
    s.summary.delivered = s.delivered.length ∧ s.summary.failed = s.failed.length ∧
      s.summary.failureBreakdown.total = s.summary.failed := by
  obtain ⟨hDelivered, hFailed, hTotal⟩ :=
    foldl_merge_spec ((List.finRange workers).map fun w => (s.worker w).outcome) {}
  rw [List.map_map] at hDelivered hFailed hTotal
  have hSumDelivered := hInv.delivered
  have hSumFailed := hInv.failed
  have hSumTotal : ∑ w, (s.worker w).outcome.failureBreakdown.total = ∑ w, (s.worker w).outcome.failed :=
    Finset.sum_congr rfl fun w _ => hInv.breakdown w
  rw [Fin.sum_univ_def] at hSumDelivered hSumFailed
  rw [Fin.sum_univ_def, Fin.sum_univ_def] at hSumTotal
  rw [DeliveryJob.summary, hDelivered, hFailed, hTotal]
  refine ⟨(Nat.zero_add _).trans hSumDelivered, (Nat.zero_add _).trans hSumFailed, ?_⟩
  exact congrArg (0 + ·) hSumTotal

/-- At any time no batch was taken too often and no UID was delivered twice; and when every worker has
exited, every pending UID is counted, once. -/
theorem work_accounted (hWorkers : 0 < workers) {pendingByIdentity : List (List PendingMailbox)} {batchSize : Nat}
    {events : List (Fin workers × WorkerEvent)}
    (hRun : run step (start workers pendingByIdentity batchSize) events = some s) :
    ((allBatches pendingByIdentity batchSize).map QueueItem.work).Perm (identityBatches pendingByIdentity batchSize) ∧
      (∀ work, s.attempts.count work ≤
        (batchRetries + 1) * (identityBatches pendingByIdentity batchSize).count work) ∧
      ((pendingKeys pendingByIdentity).Nodup →
        s.delivered.Nodup ∧ ∀ work, s.attempts.count work ≤ batchRetries + 1) ∧
      ((∀ w, (s.worker w).phase = .exited) →
        s.queue = [] ∧ (s.delivered ++ s.failed).Perm (pendingKeys pendingByIdentity) ∧
          s.summary.delivered = s.delivered.length ∧ s.summary.failed = s.failed.length ∧
          s.summary.delivered + s.summary.failed = (pendingKeys pendingByIdentity).length ∧
          s.summary.failed = s.summary.failureBreakdown.total) := by
  have hInv : Inv (pendingKeys pendingByIdentity) (identityBatches pendingByIdentity batchSize) s :=
    run_preserves _ (fun _ _ _ hInv hStep => hInv.move (step_move hStep)) hRun
      (inv_start pendingByIdentity batchSize hWorkers)
  have hAttempts : ∀ work, s.attempts.count work ≤
      (batchRetries + 1) * (identityBatches pendingByIdentity batchSize).count work := fun work =>
    (Nat.le_add_right _ _).trans (hInv.attempts work)
  refine ⟨work_allBatches pendingByIdentity batchSize, hAttempts, fun hNodup => ⟨?_, fun work => ?_⟩, fun hExited => ?_⟩
  · rw [List.nodup_iff_count_le_one]
    intro key
    have hKey := hInv.keys key
    have hOnce := List.nodup_iff_count_le_one.mp hNodup key
    omega
  · have hOnce := List.nodup_iff_count_le_one.mp (nodup_identityBatches hNodup batchSize) work
    have hBound := hAttempts work
    rw [batchRetries] at hBound ⊢
    omega
  · have hQueue := hInv.drained hExited
    obtain ⟨hDelivered, hFailed, hTotal⟩ := hInv.summary
    have hPerm : (s.delivered ++ s.failed).Perm (pendingKeys pendingByIdentity) := by
      rw [List.perm_iff_count]
      intro key
      have hKey := hInv.keys key
      have hHeld : held (fun item => item.keys.count key) (fun item => item.keys.count key) s.queue s.worker = 0 := by
        rw [hQueue]
        refine (weight_of_empty [] fun w => ?_).trans List.sum_nil
        rw [hExited w, load]
      rw [List.count_append]
      omega
    refine ⟨hQueue, hPerm, hDelivered, hFailed, ?_, hTotal.symm⟩
    rw [hDelivered, hFailed, ← List.length_append]
    exact hPerm.length_eq

def sharedPending : List (List PendingMailbox) :=
  [[{ mailbox := "INBOX".toList, mailboxRelpath := ["INBOX".toList], uidvalidity := 1, uids := [3, 5, 8] }],
    [{ mailbox := "Sent".toList, mailboxRelpath := ["Sent".toList], uidvalidity := 4, uids := [2] }]]

def answersAll (result : PushResult) : MessageRun where
  emlPath := []
  emlExists := true
  attachments := some []
  push _ := result

/-- One batch is requeued by one worker and delivered by the other, one is given up by the gate. -/
def sharedRun : List (Fin 2 × WorkerEvent) :=
  [(0, .pop), (1, .pop), (0, .connect none), (1, .connect (some "Too many connections".toList)), (0, .examine none),
    (0, .process (.error "connection reset".toList)), (0, .recover .giveUp), (1, .recover .giveUp), (0, .requeue),
    (1, .pop), (1, .connect none), (1, .examine none), (1, .process (.ok [answersAll (.failed false)])),
    (1, .pop), (1, .process (.ok [answersAll .pushed, answersAll .pushed])), (1, .pop), (0, .pop)]

theorem work_accounted_two_workers : ∃ s, run step (start 2 sharedPending 2) sharedRun = some s ∧
    s.queue = [] ∧ (s.delivered ++ s.failed).Perm (pendingKeys sharedPending) ∧
      s.summary.delivered = 2 ∧ s.summary.failed = 2 ∧ s.summary.failureBreakdown.total = 2 := by
  have h : (run step (start 2 sharedPending 2) sharedRun).map (fun s =>
      decide ((∀ w, (s.worker w).phase = .exited) ∧ s.delivered.length = 2 ∧ s.failed.length = 2)) = some true := by
    decide +kernel
  obtain ⟨s, hRun, hCheck⟩ := Option.map_eq_some_iff.mp h
  obtain ⟨hExited, hDelivered, hFailed⟩ := of_decide_eq_true hCheck
  obtain ⟨-, -, -, hAccounts⟩ := work_accounted (by decide) hRun
  obtain ⟨hQueue, hPerm, hSumDelivered, hSumFailed, -, hTotal⟩ := hAccounts hExited
  exact ⟨s, hRun, hQueue, hPerm, hSumDelivered.trans hDelivered, hSumFailed.trans hFailed,
    hTotal.symm.trans (hSumFailed.trans hFailed)⟩

end DeliveryJob

end Pigeon.EmailImport
