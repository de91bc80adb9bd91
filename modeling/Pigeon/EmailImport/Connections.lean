import Pigeon.Library.Permits
import Pigeon.EmailImport.Accounting

/-! # The connections of an import

Each identity has a semaphore with as many permits as it may have connections. A worker that takes a batch of
another identity logs out and returns its permit before it waits for the next one, so nobody waits for a permit with
one in hand, and nobody sleeps at the gate or before a requeue with one.
-/
namespace Pigeon.EmailImport

open Library Gate

set_option autoImplicit false

/-- The size of an identity's semaphore, with the identity's own setting. -/
def connectionCap (maxConnections : Nat) (maxImapConnections : Option Nat) : Nat := max (maxImapConnections.getD maxConnections) 1

/-- The workers, and the identity whose permit each of them holds. -/
structure PooledJob (workers : Nat) where
  job : DeliveryJob workers
  permit : Fin workers → Option Nat

inductive PoolEvent where
  /-- The logout from the identity of the batch before, with its permit returned. -/
  | logout
  | acquire
  | job (event : WorkerEvent)

def WorkerEvent.isConnect : WorkerEvent → Bool
  | .connect _ => true
  | _ => false

namespace PooledJob

variable {workers : Nat}

def start (workers : Nat) (pendingByIdentity : List (List PendingMailbox)) (batchSize : Nat) : PooledJob workers where
  job := .start workers pendingByIdentity batchSize
  permit _ := none

/-- The permit lives in the connection: it is returned when the connection is dropped, and when the worker ends. -/
def kept (worker : ImportWorker) (permit : Option Nat) : Option Nat :=
  if worker.connection.isSome && worker.phase != .exited then permit else none

def step (cap : Nat → Nat) (s : PooledJob workers) (event : Fin workers × PoolEvent) : Option (PooledJob workers) :=
  let w := event.1
  let worker := s.job.worker w
  match event.2 with
  | .logout =>
    match worker.phase with
    | .working item =>
      if worker.needsConnect item && worker.connection.isSome then
        some { job := s.job.put w { worker with connection := none }, permit := Function.update s.permit w none }
      else none
    | _ => none
  | .acquire =>
    match worker.phase with
    | .working item =>
      if worker.connection.isNone && (s.permit w).isNone && decide (holders s.permit item.identityIndex < cap item.identityIndex) then
        some { s with permit := Function.update s.permit w (some item.identityIndex) }
      else none
    | _ => none
  | .job event =>
    if event.isConnect && (worker.connection.isSome || (s.permit w).isNone) then none
    else
      (s.job.step (w, event)).map fun next =>
        { job := next, permit := Function.update s.permit w (kept (next.worker w) (s.permit w)) }

/-- The session that the worker has open. -/
def session (s : PooledJob workers) (w : Fin workers) : Option Nat :=
  if (s.job.worker w).phase = .exited then none else (s.job.worker w).connection.map WorkerConnection.identityIndex

/-- Everything a step does to the queue, the worker and its permit. -/
inductive Turn (cap : Nat → Nat) (s : PooledJob workers) (w : Fin workers) : List QueueItem → ImportWorker → Option Nat → Prop
  | logout (item : QueueItem) (conn : WorkerConnection) (hPhase : (s.job.worker w).phase = .working item)
      (hConnect : (s.job.worker w).needsConnect item = true) (hConnection : (s.job.worker w).connection = some conn) :
      Turn cap s w s.job.queue { s.job.worker w with connection := none } none
  | acquire (item : QueueItem) (hPhase : (s.job.worker w).phase = .working item)
      (hConnection : (s.job.worker w).connection = none) (hPermit : s.permit w = none)
      (hFree : holders s.permit item.identityIndex < cap item.identityIndex) :
      Turn cap s w s.job.queue (s.job.worker w) (some item.identityIndex)
  | exit (hPhase : (s.job.worker w).phase = .ready) (hQueue : s.job.queue = []) :
      Turn cap s w s.job.queue { s.job.worker w with phase := .exited } none
  | pop (item : QueueItem) (queue : List QueueItem) (hPhase : (s.job.worker w).phase = .ready) (hQueue : s.job.queue = item :: queue) :
      Turn cap s w queue { s.job.worker w with phase := .working item } (kept { s.job.worker w with phase := .working item } (s.permit w))
  | connect (item : QueueItem) (identity : Nat) (hPhase : (s.job.worker w).phase = .working item)
      (hConnection : (s.job.worker w).connection = none) (hPermit : s.permit w = some identity) :
      Turn cap s w s.job.queue { s.job.worker w with connection := some { identityIndex := item.identityIndex, mailbox := [] } }
        (s.permit w)
  | examine (item : QueueItem) (hPhase : (s.job.worker w).phase = .working item)
      (hConnected : (s.job.worker w).needsConnect item = false) (hExamine : (s.job.worker w).needsExamine item = true) :
      Turn cap s w s.job.queue
        { s.job.worker w with connection := some { identityIndex := item.identityIndex, mailbox := item.batch.mailbox } } (s.permit w)
  | fail (item : QueueItem) (failure : BatchFailureStep) (err : Text) (hPhase : (s.job.worker w).phase = .working item) :
      Turn cap s w s.job.queue { s.job.worker w with phase := .failing item failure err, connection := none } none
  | leave (item : QueueItem) (outcome : BatchOutcome)
      (hPhase : (s.job.worker w).phase = .working item ∨ ∃ failure err, (s.job.worker w).phase = .failing item failure err) :
      Turn cap s w s.job.queue { s.job.worker w with phase := .ready, outcome }
        (kept { s.job.worker w with phase := .ready, outcome } (s.permit w))
  | spend (item : QueueItem) (failure : BatchFailureStep) (err : Text) (attemptsRemaining : Nat)
      (hPhase : (s.job.worker w).phase = .failing item failure err) (hAttempts : item.attemptsRemaining = attemptsRemaining + 1) :
      Turn cap s w s.job.queue { s.job.worker w with phase := .requeueing { item with attemptsRemaining } }
        (kept { s.job.worker w with phase := .requeueing { item with attemptsRemaining } } (s.permit w))
  | requeue (item : QueueItem) (hPhase : (s.job.worker w).phase = .requeueing item) :
      Turn cap s w (s.job.queue ++ [item]) { s.job.worker w with phase := .ready }
        (kept { s.job.worker w with phase := .ready } (s.permit w))

variable {cap : Nat → Nat} {s next : PooledJob workers} {w : Fin workers}

theorem kept_of_connected {worker : ImportWorker} {permit : Option Nat} (hConnection : worker.connection.isSome = true)
    (hPhase : worker.phase ≠ .exited) : kept worker permit = permit := by
  rw [kept, hConnection, Bool.true_and]
  exact if_pos (bne_iff_ne.mpr hPhase)

theorem kept_of_none {worker : ImportWorker} {permit : Option Nat} (hConnection : worker.connection = none) : kept worker permit = none := by
  rw [kept, hConnection]
  rfl

theorem kept_of_exited {worker : ImportWorker} {permit : Option Nat} (hPhase : worker.phase = .exited) : kept worker permit = none := by
  rw [kept, hPhase]
  simp

/-- The job's own step, with what it does to the permit. -/
theorem job_turn {event : WorkerEvent} {job : DeliveryJob workers}
    (hConnect : event.isConnect = true → (s.job.worker w).connection = none ∧ ∃ identity, s.permit w = some identity)
    (h : s.job.step (w, event) = some job) : ∃ worker,
      Turn cap s w job.queue worker (kept worker (s.permit w)) ∧ job.worker = Function.update s.job.worker w worker := by
  rw [DeliveryJob.step] at h
  dsimp only at h
  split at h
  case h_1 hPhase =>
    split at h
    · rename_i hQueue
      cases h
      refine ⟨_, ?_, rfl⟩
      rw [kept_of_exited rfl]
      exact .exit hPhase hQueue
    · rename_i hQueue
      cases h
      exact ⟨_, .pop _ _ hPhase hQueue, rfl⟩
  case h_2 item err hPhase =>
    rw [Option.ite_none_right_eq_some] at h
    obtain ⟨hConnection, identity, hPermit⟩ := hConnect rfl
    cases err with
    | none =>
      cases h.2
      refine ⟨_, ?_, rfl⟩
      rw [kept_of_connected rfl (by rw [hPhase]; exact Phase.noConfusion)]
      exact .connect item identity hPhase hConnection hPermit
    | some err =>
      cases h.2
      refine ⟨_, ?_, rfl⟩
      rw [kept_of_none rfl]
      exact .fail item .connect err hPhase
  case h_3 item err hPhase =>
    rw [Option.ite_none_right_eq_some] at h
    obtain ⟨hNeeds, hNext⟩ := h
    rw [Bool.and_eq_true, Bool.not_eq_true'] at hNeeds
    cases err with
    | none =>
      cases hNext
      refine ⟨_, ?_, rfl⟩
      rw [kept_of_connected rfl (by rw [hPhase]; exact Phase.noConfusion)]
      exact .examine item hPhase hNeeds.1 hNeeds.2
    | some err =>
      cases hNext
      refine ⟨_, ?_, rfl⟩
      rw [kept_of_none rfl]
      exact .fail item .examine err hPhase
  case h_4 item result hPhase =>
    rw [Option.ite_none_right_eq_some] at h
    cases result with
    | ok runs =>
      obtain ⟨hLength, hNext⟩ := Option.ite_none_right_eq_some.mp h.2
      cases hNext
      exact ⟨_, .leave item _ (.inl hPhase), rfl⟩
    | error err =>
      cases h.2
      refine ⟨_, ?_, rfl⟩
      rw [kept_of_none rfl]
      exact .fail item .fetch err hPhase
  case h_5 item failure err decision hPhase =>
    split at h
    · rename_i requeued hRequeued
      cases h
      obtain ⟨-, hSome⟩ := Option.ite_none_right_eq_some.mp hRequeued
      obtain ⟨attemptsRemaining, hAttempts, rfl⟩ := eq_of_requeueOrNone hSome
      exact ⟨_, .spend item failure err attemptsRemaining hPhase hAttempts, rfl⟩
    · cases h
      exact ⟨_, .leave item _ (.inr ⟨failure, err, hPhase⟩), rfl⟩
  case h_6 item hPhase =>
    cases h
    exact ⟨_, .requeue item hPhase, rfl⟩
  case h_7 => cases h

theorem step_turn {event : PoolEvent} (h : step cap s (w, event) = some next) : ∃ worker permit,
    Turn cap s w next.job.queue worker permit ∧ next.job.worker = Function.update s.job.worker w worker ∧
      next.permit = Function.update s.permit w permit := by
  cases event with
  | logout =>
    rw [step] at h
    dsimp only at h
    split at h
    · rename_i item hPhase
      obtain ⟨hNeeds, hNext⟩ := Option.ite_none_right_eq_some.mp h
      rw [Bool.and_eq_true] at hNeeds
      obtain ⟨conn, hConnection⟩ := Option.isSome_iff_exists.mp hNeeds.2
      cases hNext
      exact ⟨_, _, .logout item conn hPhase hNeeds.1 hConnection, rfl, rfl⟩
    · cases h
  | acquire =>
    rw [step] at h
    dsimp only at h
    split at h
    · rename_i item hPhase
      obtain ⟨hFree, hNext⟩ := Option.ite_none_right_eq_some.mp h
      rw [Bool.and_eq_true, Bool.and_eq_true, Option.isNone_iff_eq_none, Option.isNone_iff_eq_none, decide_eq_true_eq] at hFree
      cases hNext
      exact ⟨_, _, .acquire item hPhase hFree.1.1 hFree.1.2 hFree.2, (Function.update_eq_self w _).symm, rfl⟩
    · cases h
  | job event =>
    rw [step] at h
    dsimp only at h
    obtain ⟨hConnect, hNext⟩ := Option.ite_none_left_eq_some.mp h
    obtain ⟨job, hJob, rfl⟩ := Option.map_eq_some_iff.mp hNext
    have hReady : event.isConnect = true → (s.job.worker w).connection = none ∧ ∃ identity, s.permit w = some identity := by
      intro hEvent
      rw [hEvent, Bool.true_and, Bool.or_eq_true, not_or, Option.not_isSome_iff_eq_none, Option.isNone_iff_eq_none] at hConnect
      exact ⟨hConnect.1, Option.ne_none_iff_exists'.mp hConnect.2⟩
    obtain ⟨worker, hTurn, hWorker⟩ := @job_turn workers cap s w event job hReady hJob
    refine ⟨worker, _, hTurn, hWorker, ?_⟩
    have hSelf : job.worker w = worker := by rw [hWorker, Function.update_self]
    rw [hSelf]

/-- What a worker may hold in its phase. -/
inductive Holds : ImportWorker → Option Nat → Prop
  | nothing {worker : ImportWorker} (hConnection : worker.connection = none) : Holds worker none
  | exited {worker : ImportWorker} (hPhase : worker.phase = .exited) : Holds worker none
  | connected {worker : ImportWorker} (conn : WorkerConnection) (hConnection : worker.connection = some conn)
      (hPhase : worker.phase = .ready ∨ ∃ item, worker.phase = .working item) : Holds worker (some conn.identityIndex)
  | connecting {worker : ImportWorker} (item : QueueItem) (hConnection : worker.connection = none) (hPhase : worker.phase = .working item) :
      Holds worker (some item.identityIndex)

structure Pooled (cap : Nat → Nat) (s : PooledJob workers) : Prop where
  bounded : Bounded cap s.permit
  holds : ∀ w, Holds (s.job.worker w) (s.permit w)

theorem Holds.eq_none {worker : ImportWorker} {permit : Option Nat} (h : Holds worker permit)
    (hReady : worker.phase ≠ .ready) (hWorking : ∀ item, worker.phase ≠ .working item) : permit = none := by
  cases h with
  | nothing hConnection => rfl
  | exited hPhase => rfl
  | connected conn hConnection hPhase =>
    obtain hPhase | ⟨item, hPhase⟩ := hPhase
    · exact absurd hPhase hReady
    · exact absurd hPhase (hWorking item)
  | connecting item hConnection hPhase => exact absurd hPhase (hWorking item)

theorem Holds.permit_of_connected {worker : ImportWorker} {permit : Option Nat} {conn : WorkerConnection} (h : Holds worker permit)
    (hConnection : worker.connection = some conn) (hRunning : worker.phase ≠ .exited) : permit = some conn.identityIndex := by
  cases h with
  | nothing hNone => cases hConnection.symm.trans hNone
  | exited hPhase => exact absurd hPhase hRunning
  | connected other hOther hPhase =>
    cases hConnection.symm.trans hOther
    rfl
  | connecting item hNone hPhase => cases hConnection.symm.trans hNone

/-- A phase in which a connection is kept. -/
theorem Holds.rephase {worker next : ImportWorker} {permit : Option Nat} (h : Holds worker permit) (hOld : worker.phase ≠ .exited)
    (hConnection : next.connection = worker.connection)
    (hPhase : worker.connection = none ∨ next.phase = .ready ∨ ∃ item, next.phase = .working item) :
    Holds next (kept next permit) := by
  cases hConn : worker.connection with
  | none =>
    rw [kept_of_none (hConnection.trans hConn)]
    exact .nothing (hConnection.trans hConn)
  | some conn =>
    have hNext : next.connection = some conn := hConnection.trans hConn
    have hKeeps : next.phase = .ready ∨ ∃ item, next.phase = .working item := by
      obtain hNone | hKeeps := hPhase
      · rw [hNone] at hConn
        cases hConn
      · exact hKeeps
    have hRunning : next.phase ≠ .exited := by
      obtain hReady | ⟨item, hItem⟩ := hKeeps
      · rw [hReady]
        exact Phase.noConfusion
      · rw [hItem]
        exact Phase.noConfusion
    rw [kept_of_connected (by rw [hNext]; rfl) hRunning, h.permit_of_connected hConn hOld]
    exact .connected conn hNext hKeeps

theorem Holds.connection_eq_none {worker : ImportWorker} {permit : Option Nat} (h : Holds worker permit)
    (hReady : worker.phase ≠ .ready) (hWorking : ∀ item, worker.phase ≠ .working item) (hRunning : worker.phase ≠ .exited) :
    worker.connection = none := by
  cases h with
  | nothing hConnection => exact hConnection
  | exited hPhase => exact absurd hPhase hRunning
  | connected conn hConnection hPhase =>
    obtain hPhase | ⟨item, hPhase⟩ := hPhase
    · exact absurd hPhase hReady
    · exact absurd hPhase (hWorking item)
  | connecting item hConnection hPhase => exact absurd hPhase (hWorking item)

theorem Turn.holds {queue : List QueueItem} {worker : ImportWorker} {permit : Option Nat} (h : Turn cap s w queue worker permit)
    (hHolds : Holds (s.job.worker w) (s.permit w)) : Holds worker permit := by
  cases h with
  | logout item conn hPhase hConnect hConnection => exact .nothing rfl
  | acquire item hPhase hConnection hPermit hFree => exact .connecting item hConnection hPhase
  | exit hPhase hQueue => exact .exited rfl
  | pop item queue hPhase hQueue =>
    exact hHolds.rephase (by rw [hPhase]; exact Phase.noConfusion) rfl (.inr (.inr ⟨item, rfl⟩))
  | connect item identity hPhase hConnection hPermit =>
    have hSame : s.permit w = some item.identityIndex := by
      cases hWas : s.permit w with
      | none => cases hPermit.symm.trans hWas
      | some other =>
        rw [hWas] at hHolds
        cases hHolds with
        | connected conn hConn _ => cases hConnection.symm.trans hConn
        | connecting held _ hHeld =>
          cases hPhase.symm.trans hHeld
          rfl
    rw [hSame]
    exact .connected { identityIndex := item.identityIndex, mailbox := [] } rfl (.inr ⟨item, hPhase⟩)
  | examine item hPhase hConnected hExamine =>
    cases hConn : (s.job.worker w).connection with
    | none =>
      rw [ImportWorker.needsConnect, hConn] at hConnected
      cases hConnected
    | some conn =>
      rw [ImportWorker.needsConnect, hConn, Option.all_some, bne_eq_false_iff_eq] at hConnected
      rw [hHolds.permit_of_connected hConn (by rw [hPhase]; exact Phase.noConfusion), hConnected]
      exact .connected { identityIndex := item.identityIndex, mailbox := item.batch.mailbox } rfl (.inr ⟨item, hPhase⟩)
  | fail item failure err hPhase => exact .nothing rfl
  | leave item outcome hPhase =>
    refine hHolds.rephase ?_ rfl (.inr (.inl rfl))
    obtain hPhase | ⟨failure, err, hPhase⟩ := hPhase
    all_goals
      rw [hPhase]
      exact Phase.noConfusion
  | spend item failure err attemptsRemaining hPhase hAttempts =>
    refine hHolds.rephase (by rw [hPhase]; exact Phase.noConfusion) rfl (.inl (hHolds.connection_eq_none ?_ ?_ ?_))
    all_goals
      rw [hPhase]
      first | exact Phase.noConfusion | exact fun _ => Phase.noConfusion
  | requeue item hPhase => exact hHolds.rephase (by rw [hPhase]; exact Phase.noConfusion) rfl (.inr (.inl rfl))

theorem kept_eq (worker : ImportWorker) (permit : Option Nat) : kept worker permit = permit ∨ kept worker permit = none := by
  rw [kept]
  split
  · exact .inl rfl
  · exact .inr rfl

/-- A turn keeps the permit, returns it, or takes one that was left. -/
theorem Turn.permit_eq {queue : List QueueItem} {worker : ImportWorker} {permit : Option Nat} (h : Turn cap s w queue worker permit) :
    permit = s.permit w ∨ permit = none ∨ ∃ identity, permit = some identity ∧ holders s.permit identity < cap identity := by
  cases h with
  | acquire item hPhase hConnection hPermit hFree => exact .inr (.inr ⟨item.identityIndex, rfl, hFree⟩)
  | connect | examine => exact .inl rfl
  | logout | exit | fail => exact .inr (.inl rfl)
  | pop | leave | spend | requeue =>
    obtain hSame | hNone := kept_eq _ (s.permit w)
    · exact .inl hSame
    · exact .inr (.inl hNone)

theorem Pooled.step {event : PoolEvent} (hPooled : Pooled cap s) (h : step cap s (w, event) = some next) : Pooled cap next := by
  obtain ⟨worker, permit, hTurn, hWorker, hPermit⟩ := step_turn h
  constructor
  · rw [hPermit]
    obtain rfl | rfl | ⟨identity, rfl, hFree⟩ := hTurn.permit_eq
    · rw [Function.update_eq_self]
      exact hPooled.bounded
    · exact hPooled.bounded.release w
    · exact hPooled.bounded.acquire w hFree
  · intro other
    rw [hWorker, hPermit]
    by_cases hSame : other = w
    · subst hSame
      rw [Function.update_self, Function.update_self]
      exact hTurn.holds (hPooled.holds other)
    · rw [Function.update_of_ne hSame, Function.update_of_ne hSame]
      exact hPooled.holds other

/-! ## Somebody can always go on -/

theorem job_enabled {event : WorkerEvent} (hEvent : event.isConnect = false) (h : (s.job.step (w, event)).isSome = true) :
    (step cap s (w, .job event)).isSome = true := by
  rw [step]
  dsimp only
  rw [hEvent, Bool.false_and, if_neg Bool.false_ne_true, Option.isSome_map]
  exact h

theorem working_enabled {item : QueueItem} (hPhase : (s.job.worker w).phase = .working item)
    (hConnected : (s.job.worker w).connection.isSome = true) : ∃ event, (step cap s (w, event)).isSome = true := by
  cases hConnect : (s.job.worker w).needsConnect item with
  | true =>
    refine ⟨.logout, ?_⟩
    rw [step]
    dsimp only
    rw [hPhase]
    dsimp only
    rw [hConnect, hConnected]
    rfl
  | false =>
    cases hExamine : (s.job.worker w).needsExamine item with
    | true =>
      refine ⟨.job (.examine none), job_enabled rfl ?_⟩
      rw [DeliveryJob.step]
      dsimp only
      rw [hPhase]
      dsimp only
      rw [hConnect, hExamine]
      rfl
    | false =>
      refine ⟨.job (.process (.error [])), job_enabled rfl ?_⟩
      rw [DeliveryJob.step]
      dsimp only
      rw [hPhase]
      dsimp only
      rw [hConnect, hExamine]
      rfl

theorem ready_enabled (hPhase : (s.job.worker w).phase = .ready) : (step cap s (w, .job .pop)).isSome = true := by
  apply job_enabled rfl
  rw [DeliveryJob.step]
  dsimp only
  rw [hPhase]
  dsimp only
  split <;> rfl

/-- Who holds a permit does not wait for one. -/
theorem holder_enabled {identity : Nat} (hHolds : Holds (s.job.worker w) (s.permit w)) (hPermit : s.permit w = some identity) :
    ∃ event, (step cap s (w, event)).isSome = true := by
  have hSome := hPermit
  rw [hPermit] at hHolds
  cases hHolds with
  | connected conn hConnection hPhase =>
    obtain hPhase | ⟨item, hPhase⟩ := hPhase
    · exact ⟨_, ready_enabled hPhase⟩
    · exact working_enabled hPhase (by rw [hConnection]; rfl)
  | connecting item hConnection hPhase =>
    refine ⟨.job (.connect none), ?_⟩
    rw [step]
    dsimp only
    rw [hConnection, hSome, DeliveryJob.step]
    dsimp only
    rw [hPhase]
    dsimp only
    rw [ImportWorker.needsConnect, hConnection]
    rfl

theorem exists_enabled (hPooled : Pooled cap s) (hCap : ∀ identity, 0 < cap identity) (hRunning : (s.job.worker w).phase ≠ .exited) :
    ∃ other event, (step cap s (other, event)).isSome = true := by
  cases hPhase : (s.job.worker w).phase with
  | ready => exact ⟨w, _, ready_enabled hPhase⟩
  | failing item failure err =>
    refine ⟨w, .job (.recover .retry), job_enabled rfl ?_⟩
    rw [DeliveryJob.step]
    dsimp only
    rw [hPhase]
    dsimp only
    split <;> rfl
  | requeueing item =>
    refine ⟨w, .job .requeue, job_enabled rfl ?_⟩
    rw [DeliveryJob.step]
    dsimp only
    rw [hPhase]
    rfl
  | exited => exact absurd hPhase hRunning
  | working item =>
    cases hConnection : (s.job.worker w).connection with
    | some conn =>
      exact ⟨w, working_enabled hPhase (by rw [hConnection]; rfl)⟩
    | none =>
      cases hPermit : s.permit w with
      | some identity =>
        exact ⟨w, holder_enabled (hPooled.holds w) hPermit⟩
      | none =>
        by_cases hFree : holders s.permit item.identityIndex < cap item.identityIndex
        · refine ⟨w, .acquire, ?_⟩
          rw [step]
          dsimp only
          rw [hPhase]
          dsimp only
          rw [hConnection, hPermit, decide_eq_true hFree]
          rfl
        · -- The semaphore is empty, so one of its holders can go on.
          obtain ⟨holder, hHolder⟩ := exists_holder (hCap item.identityIndex) hFree
          exact ⟨holder, holder_enabled (hPooled.holds holder) hHolder⟩

/-! ## The run ends -/

def queuedCost (item : QueueItem) : Nat := 8 * item.attemptsRemaining + 8

/-- How many steps of the attempt are left, after those that the connection and the permit save. -/
def workingCost (worker : ImportWorker) (permit : Option Nat) (item : QueueItem) : Nat :=
  if worker.needsConnect item then if worker.connection.isSome then 7 else if permit.isNone then 6 else 5
  else if worker.needsExamine item then 4
  else 3

def heldCost (held : ImportWorker × Option Nat) : Nat :=
  match held.1.phase with
  | .ready => 1
  | .working item => 8 * item.attemptsRemaining + 1 + workingCost held.1 held.2 item
  | .failing item _ _ => 8 * item.attemptsRemaining + 3
  | .requeueing item => 8 * item.attemptsRemaining + 10
  | .exited => 0

def hands (s : PooledJob workers) (w : Fin workers) : ImportWorker × Option Nat := (s.job.worker w, s.permit w)

def cost (s : PooledJob workers) : Nat := weight queuedCost heldCost s.job.queue (hands s)

theorem workingCost_le (worker : ImportWorker) (permit : Option Nat) (item : QueueItem) : workingCost worker permit item ≤ 7 := by
  rw [workingCost]
  split_ifs <;> omega

theorem workingCost_unconnected {worker : ImportWorker} {item : QueueItem} (h : worker.connection = none) (permit : Option Nat) :
    workingCost worker permit item = if permit.isNone then 6 else 5 := by
  rw [workingCost, ImportWorker.needsConnect, h]
  rfl

theorem workingCost_connected {worker : ImportWorker} {item : QueueItem} {mailbox : Text}
    (h : worker.connection = some { identityIndex := item.identityIndex, mailbox }) (permit : Option Nat) :
    workingCost worker permit item = if mailbox = item.batch.mailbox then 3 else 4 := by
  rw [workingCost, ImportWorker.needsConnect, ImportWorker.needsExamine, h, Option.all_some, Option.all_some, bne_self_eq_false]
  by_cases hMailbox : mailbox = item.batch.mailbox <;> simp [hMailbox]

theorem heldCost_working {worker : ImportWorker} {item : QueueItem} (h : worker.phase = .working item) (permit : Option Nat) :
    heldCost (worker, permit) = 8 * item.attemptsRemaining + 1 + workingCost worker permit item := by
  rw [heldCost]
  dsimp only
  rw [h]

theorem three_le_workingCost (worker : ImportWorker) (permit : Option Nat) (item : QueueItem) : 3 ≤ workingCost worker permit item := by
  rw [workingCost]
  split_ifs <;> omega

theorem Turn.cost {queue : List QueueItem} {worker : ImportWorker} {permit : Option Nat} (h : Turn cap s w queue worker permit) :
    (queue.map queuedCost).sum + heldCost (worker, permit) + 1 ≤
      (s.job.queue.map queuedCost).sum + heldCost (s.job.worker w, s.permit w) := by
  have hWorking {item : QueueItem} (hPhase : (s.job.worker w).phase = .working item) := heldCost_working hPhase (s.permit w)
  cases h with
  | logout item conn hPhase hConnect hConnection =>
    have hBefore : workingCost (s.job.worker w) (s.permit w) item = 7 := by
      rw [workingCost, hConnect, hConnection]
      rfl
    have hAfter : heldCost ({ s.job.worker w with connection := none }, none) = 8 * item.attemptsRemaining + 1 + 6 := by
      refine (@heldCost_working { s.job.worker w with connection := none } item hPhase none).trans ?_
      rw [workingCost_unconnected rfl]
      rfl
    rw [hWorking hPhase, hBefore, hAfter]
    omega
  | acquire item hPhase hConnection hPermit hFree =>
    rw [hWorking hPhase, heldCost_working hPhase, workingCost_unconnected hConnection, workingCost_unconnected hConnection, hPermit]
    change _ + (_ + 5) + 1 ≤ _ + (_ + 6)
    omega
  | exit hPhase hQueue =>
    simp only [heldCost, hPhase]
    omega
  | pop item queue hPhase hQueue =>
    have hAfter := workingCost_le { s.job.worker w with phase := .working item }
      (kept { s.job.worker w with phase := .working item } (s.permit w)) item
    rw [heldCost_working rfl, hQueue, List.map_cons, List.sum_cons, queuedCost]
    simp only [heldCost, hPhase]
    dsimp only at hAfter
    omega
  | connect item identity hPhase hConnection hPermit =>
    let conn : WorkerConnection := { identityIndex := item.identityIndex, mailbox := [] }
    have hAfter : heldCost ({ s.job.worker w with connection := some conn }, s.permit w) ≤ 8 * item.attemptsRemaining + 1 + 4 := by
      refine (@heldCost_working { s.job.worker w with connection := some conn } item hPhase (s.permit w)).trans_le ?_
      rw [workingCost_connected rfl]
      split <;> omega
    rw [hWorking hPhase, workingCost_unconnected hConnection]
    rw [hPermit] at hAfter ⊢
    change _ + heldCost ({ s.job.worker w with connection := some conn }, some identity) + 1 ≤ _ + (_ + 5)
    omega
  | examine item hPhase hConnected hExamine =>
    have hBefore : workingCost (s.job.worker w) (s.permit w) item = 4 := by
      rw [workingCost, hConnected, hExamine]
      rfl
    let conn : WorkerConnection := { identityIndex := item.identityIndex, mailbox := item.batch.mailbox }
    have hAfter : heldCost ({ s.job.worker w with connection := some conn }, s.permit w) = 8 * item.attemptsRemaining + 1 + 3 := by
      refine (@heldCost_working { s.job.worker w with connection := some conn } item hPhase (s.permit w)).trans ?_
      rw [workingCost_connected rfl, if_pos rfl]
    rw [hWorking hPhase, hBefore, hAfter]
    omega
  | fail item failure err hPhase =>
    have hLeast := three_le_workingCost (s.job.worker w) (s.permit w) item
    have hAfter : heldCost ({ s.job.worker w with phase := .failing item failure err, connection := none }, none) =
        8 * item.attemptsRemaining + 3 := rfl
    rw [hWorking hPhase, hAfter]
    omega
  | leave item outcome hPhase =>
    have hBefore : 3 ≤ heldCost (s.job.worker w, s.permit w) := by
      obtain hPhase | ⟨failure, err, hPhase⟩ := hPhase
      · have hLeast := three_le_workingCost (s.job.worker w) (s.permit w) item
        rw [hWorking hPhase]
        omega
      · simp only [heldCost, hPhase]
        omega
    have hAfter : heldCost ({ s.job.worker w with phase := .ready, outcome },
        kept { s.job.worker w with phase := .ready, outcome } (s.permit w)) = 1 := rfl
    rw [hAfter]
    omega
  | spend item failure err attemptsRemaining hPhase hAttempts =>
    simp only [heldCost, hPhase, hAttempts]
    omega
  | requeue item hPhase =>
    rw [List.map_append, List.sum_append, List.map_singleton, List.sum_singleton]
    simp only [heldCost, hPhase, queuedCost]
    omega

theorem cost_step {event : PoolEvent} (h : step cap s (w, event) = some next) : cost next + 1 ≤ cost s := by
  obtain ⟨worker, permit, hTurn, hWorker, hPermit⟩ := step_turn h
  have hHands : hands next = Function.update (hands s) w (worker, permit) := by
    funext other
    rw [hands, hWorker, hPermit]
    by_cases hSame : other = w
    · subst hSame
      rw [Function.update_self, Function.update_self, Function.update_self]
    · rw [Function.update_of_ne hSame, Function.update_of_ne hSame, Function.update_of_ne hSame, hands]
  have hSpent := hTurn.cost
  have hSum := sum_held_update heldCost (hands s) w (worker, permit)
  rw [cost, cost, hHands, weight, weight]
  rw [hands] at hSum
  omega

theorem length_add_cost_le {s next : PooledJob workers} {events : List (Fin workers × PoolEvent)}
    (hRun : run (step cap) s events = some next) : events.length + cost next ≤ cost s := by
  induction events generalizing s with
  | nil =>
    cases hRun
    exact (Nat.zero_add _).le
  | cons event events ih =>
    obtain ⟨after, hAfter, hRest⟩ := run_cons_eq_some.mp hRun
    have hFirst : cost after + 1 ≤ cost s := cost_step hAfter
    have hLater := ih hRest
    rw [List.length_cons]
    omega

theorem cost_start (pendingByIdentity : List (List PendingMailbox)) (batchSize : Nat) :
    cost (start workers pendingByIdentity batchSize) =
      8 * (batchRetries + 1) * (identityBatches pendingByIdentity batchSize).length + workers := by
  have hQueue : ∀ items : List QueueItem, (∀ item ∈ items, item.attemptsRemaining = batchRetries) →
      (items.map queuedCost).sum = 8 * (batchRetries + 1) * items.length := by
    intro items
    induction items with
    | nil => exact fun _ => rfl
    | cons item items ih =>
      intro hItems
      rw [List.map_cons, List.sum_cons, ih fun other hOther => hItems other (List.mem_cons_of_mem item hOther), queuedCost,
        hItems item List.mem_cons_self, List.length_cons]
      ring
  have hLength := (work_allBatches pendingByIdentity batchSize).length_eq
  rw [List.length_map] at hLength
  have hHands : ∑ w : Fin workers, heldCost (hands (start workers pendingByIdentity batchSize) w) = workers := by
    refine (Finset.sum_const 1).trans ?_
    rw [Finset.card_univ, Fintype.card_fin, smul_eq_mul, mul_one]
  rw [cost, weight, hHands, ← hLength]
  congr 1
  exact hQueue _ fun item => DeliveryJob.attemptsRemaining_of_mem pendingByIdentity batchSize

theorem pooled_start (pendingByIdentity : List (List PendingMailbox)) (batchSize : Nat) :
    Pooled cap (start workers pendingByIdentity batchSize) where
  bounded := bounded_none cap
  holds _ := .nothing rfl

theorem inv_step {pending : List (Nat × LedgerKey)} {works : List (Nat × Batch)} {event : PoolEvent}
    (hInv : DeliveryJob.Inv pending works s.job) (h : step cap s (w, event) = some next) : DeliveryJob.Inv pending works next.job := by
  cases event with
  | logout =>
    rw [step] at h
    dsimp only at h
    split at h
    · rename_i item hPhase
      cases (Option.ite_none_right_eq_some.mp h).2
      exact hInv.move (.hold item _ _ hPhase (.inl hPhase))
    · cases h
  | acquire =>
    rw [step] at h
    dsimp only at h
    split at h
    · cases (Option.ite_none_right_eq_some.mp h).2
      exact hInv
    · cases h
  | job event =>
    rw [step] at h
    dsimp only at h
    obtain ⟨job, hJob, rfl⟩ := Option.map_eq_some_iff.mp (Option.ite_none_left_eq_some.mp h).2
    exact hInv.move (DeliveryJob.step_move hJob)

/-- For every sizes of the semaphores and every interleaving: no identity ever has more sessions open than its semaphore
has permits, a worker that sleeps at the gate or before a requeue or has ended holds none, the run cannot go on
for ever, and it stops only when every worker has exited with every pending UID counted. -/
theorem connections_spec (hWorkers : 0 < workers) (maxConnections : Nat) (maxImapConnections : Nat → Option Nat)
    {pendingByIdentity : List (List PendingMailbox)} {batchSize : Nat} {events : List (Fin workers × PoolEvent)}
    (hRun : run (step fun identity => connectionCap maxConnections (maxImapConnections identity))
      (start workers pendingByIdentity batchSize) events = some s) :
    (∀ identity, (Finset.univ.filter fun w => s.session w = some identity).card ≤
        connectionCap maxConnections (maxImapConnections identity)) ∧
      (∀ w, (s.job.worker w).phase ≠ .ready → (∀ item, (s.job.worker w).phase ≠ .working item) → s.permit w = none) ∧
      events.length ≤ 8 * (batchRetries + 1) * (identityBatches pendingByIdentity batchSize).length + workers ∧
      ((∀ w event, step (fun identity => connectionCap maxConnections (maxImapConnections identity)) s (w, event) = none) →
        (∀ w, (s.job.worker w).phase = .exited) ∧ s.job.queue = [] ∧
          ∀ key, s.job.delivered.count key + s.job.failed.count key = (pendingKeys pendingByIdentity).count key) := by
  have hCap : ∀ identity, 0 < connectionCap maxConnections (maxImapConnections identity) := fun identity =>
    Nat.lt_of_lt_of_le Nat.zero_lt_one (le_max_right _ _)
  have hPooled : Pooled (fun identity => connectionCap maxConnections (maxImapConnections identity)) s :=
    run_preserves _ (fun _ _ _ hPooled hStep => hPooled.step hStep) hRun (pooled_start pendingByIdentity batchSize)
  have hInv : DeliveryJob.Inv (pendingKeys pendingByIdentity) (identityBatches pendingByIdentity batchSize) s.job :=
    run_preserves (fun s : PooledJob workers => DeliveryJob.Inv _ _ s.job) (fun _ _ _ hInv hStep => inv_step hInv hStep) hRun
      (DeliveryJob.inv_start pendingByIdentity batchSize hWorkers)
  refine ⟨fun identity => ?_, fun w hReady hWorking => (hPooled.holds w).eq_none hReady hWorking, ?_, fun hStuck => ?_⟩
  · refine (Finset.card_le_card fun w hw => ?_).trans (hPooled.bounded identity)
    rw [Finset.mem_filter] at hw ⊢
    obtain ⟨hMem, hSession⟩ := hw
    rw [session] at hSession
    obtain ⟨hRunning, hConnection⟩ := Option.ite_none_left_eq_some.mp hSession
    obtain ⟨conn, hConn, rfl⟩ := Option.map_eq_some_iff.mp hConnection
    exact ⟨hMem, (hPooled.holds w).permit_of_connected hConn hRunning⟩
  · rw [← cost_start]
    exact (Nat.le_add_right _ _).trans (length_add_cost_le hRun)
  · have hExited : ∀ w, (s.job.worker w).phase = .exited := by
      intro w
      by_contra hRunning
      obtain ⟨other, event, hEnabled⟩ := exists_enabled hPooled hCap hRunning
      rw [hStuck other event] at hEnabled
      cases hEnabled
    have hQueue := hInv.drained hExited
    refine ⟨hExited, hQueue, fun key => ?_⟩
    have hKey := hInv.keys key
    have hHeld : DeliveryJob.held (fun item => item.keys.count key) (fun item => item.keys.count key) s.job.queue s.job.worker = 0 := by
      rw [hQueue]
      refine (weight_of_empty [] fun w => ?_).trans List.sum_nil
      rw [hExited w, DeliveryJob.load]
    omega

/-- Two workers and two identities with one connection each: both workers change identity. -/
def crossedRun : List (Fin 2 × PoolEvent) :=
  let first : Fin 2 := ⟨0, Nat.two_pos⟩
  let second : Fin 2 := ⟨1, Nat.one_lt_two⟩
  [(first, .job .pop), (second, .job .pop), (first, .acquire), (second, .acquire), (first, .job (.connect none)), (second, .job (.connect none)),
    (first, .job (.examine none)), (second, .job (.examine none)),
    (first, .job (.process (.ok [DeliveryJob.answersAll .pushed, DeliveryJob.answersAll .pushed]))),
    (second, .job (.process (.error "connection reset".toList))), (second, .job (.recover .retry)), (second, .job .requeue),
    (second, .job .pop), (first, .job .pop), (first, .logout), (second, .acquire), (first, .acquire)]

theorem connections_spec_two_workers : ∃ s, run (step fun _ => connectionCap 1 none) (start 2 DeliveryJob.sharedPending 2) crossedRun = some s ∧
    (∀ identity, (Finset.univ.filter fun w => s.session w = some identity).card ≤ 1) ∧ crossedRun.length ≤ 98 := by
  have h : (run (step fun _ => connectionCap 1 none) (start 2 DeliveryJob.sharedPending 2) crossedRun).isSome = true := by
    decide +kernel
  obtain ⟨s, hRun⟩ := Option.isSome_iff_exists.mp h
  obtain ⟨hSessions, -, hLength, -⟩ := connections_spec (by decide) 1 (fun _ => none) hRun
  exact ⟨s, hRun, hSessions, hLength.trans (by decide +kernel)⟩

end PooledJob

end Pigeon.EmailImport
