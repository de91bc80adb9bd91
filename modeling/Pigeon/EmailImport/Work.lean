import Pigeon.Library.Queue
import Pigeon.Library.Runs
import Pigeon.Gate.Model
import Pigeon.EmailImport.Gather

/-! # The workers of an import and their queue

The pending UIDs of every identity are cut into batches, and the batches are interleaved into one
queue. A worker takes a batch, connects to its identity, opens its mailbox, fetches it and delivers its
messages one by one. A batch that fails as a whole goes back to the end of the queue, or its UIDs
are given up.
-/
namespace Pigeon.EmailImport

open Library Gate

set_option autoImplicit false

def batchRetries : Nat := 3

structure Batch where
  mailbox : Text
  mailboxRelpath : Path
  uidvalidity : UInt32
  uids : List UInt32
deriving DecidableEq, Repr

def Batch.keys (batch : Batch) : List LedgerKey :=
  batch.uids.map fun uid => (batch.mailbox, batch.uidvalidity, uid)

def splitIntoBatches (uids : List UInt32) (batchSize : Nat) : List (List UInt32) := chunks (max batchSize 1) uids

def batchesFromPending (batchSize : Nat) (pending : List PendingMailbox) : List Batch :=
  pending.flatMap fun mailbox =>
    (splitIntoBatches mailbox.uids batchSize).map fun uids =>
      { mailbox := mailbox.mailbox, mailboxRelpath := mailbox.mailboxRelpath, uidvalidity := mailbox.uidvalidity, uids }

structure QueueItem where
  identityIndex : Nat
  batch : Batch
  attemptsRemaining : Nat
deriving DecidableEq, Repr

namespace QueueItem

/-- The batch that the item stands for, whatever attempts it has left. -/
def work (item : QueueItem) : Nat × Batch := (item.identityIndex, item.batch)

def keys (item : QueueItem) : List (Nat × LedgerKey) := item.batch.keys.map (Prod.mk item.identityIndex)

end QueueItem

def perIdentity (pendingByIdentity : List (List PendingMailbox)) (batchSize : Nat) : List (List Batch) :=
  pendingByIdentity.map (batchesFromPending batchSize)

def allBatches (pendingByIdentity : List (List PendingMailbox)) (batchSize : Nat) : List QueueItem :=
  let batches := perIdentity pendingByIdentity batchSize
  (roundRobin (batches.map List.length).sum batches).map fun entry =>
    { identityIndex := entry.1, batch := entry.2, attemptsRemaining := batchRetries }

def pendingKeys (pendingByIdentity : List (List PendingMailbox)) : List (Nat × LedgerKey) :=
  (indexed pendingByIdentity).flatMap fun entry => entry.2.keys.map (Prod.mk entry.1)

def workerCount (maxConnections contexts totalBatches : Nat) : Nat :=
  min (max (maxConnections * max contexts 1) 1) (max totalBatches 1)

structure FailureBreakdown where
  connect : Nat := 0
  examine : Nat := 0
  fetch : Nat := 0
  missingFile : Nat := 0
  push : Nat := 0
deriving DecidableEq, Repr

namespace FailureBreakdown

def merge (breakdown other : FailureBreakdown) : FailureBreakdown where
  connect := breakdown.connect + other.connect
  examine := breakdown.examine + other.examine
  fetch := breakdown.fetch + other.fetch
  missingFile := breakdown.missingFile + other.missingFile
  push := breakdown.push + other.push

def total (breakdown : FailureBreakdown) : Nat :=
  breakdown.connect + breakdown.examine + breakdown.fetch + breakdown.missingFile + breakdown.push

end FailureBreakdown

inductive BatchFailureStep where
  | connect
  | examine
  | fetch
deriving DecidableEq, Repr

def BatchFailureStep.charge (uidCount : Nat) (breakdown : FailureBreakdown) : BatchFailureStep → FailureBreakdown
  | .connect => { breakdown with connect := breakdown.connect + uidCount }
  | .examine => { breakdown with examine := breakdown.examine + uidCount }
  | .fetch => { breakdown with fetch := breakdown.fetch + uidCount }

structure BatchOutcome where
  delivered : Nat := 0
  failed : Nat := 0
  objectsPushed : Nat := 0
  attachmentsPushed : Nat := 0
  attachmentExtractionFailed : Nat := 0
  gateGiveUps : Nat := 0
  failureBreakdown : FailureBreakdown := {}
deriving DecidableEq, Repr

def BatchOutcome.merge (outcome other : BatchOutcome) : BatchOutcome where
  delivered := outcome.delivered + other.delivered
  failed := outcome.failed + other.failed
  objectsPushed := outcome.objectsPushed + other.objectsPushed
  attachmentsPushed := outcome.attachmentsPushed + other.attachmentsPushed
  attachmentExtractionFailed := outcome.attachmentExtractionFailed + other.attachmentExtractionFailed
  gateGiveUps := outcome.gateGiveUps + other.gateGiveUps
  failureBreakdown := outcome.failureBreakdown.merge other.failureBreakdown

inductive PushResult where
  | pushed
  | failed (gated : Bool)
deriving DecidableEq, Repr

/-- What the disk, the extraction and `push_with_gate` answer while one message is delivered. -/
structure MessageRun where
  emlPath : Path
  emlExists : Bool
  attachments : Option (List Path)
  push : Path → PushResult

namespace MessageRun

def objects (answers : MessageRun) : List Path := answers.emlPath :: answers.attachments.getD []

/-- The loop over the objects, which stops at the first failure; and whether all were pushed. -/
def pushAll (answers : MessageRun) (outcome : BatchOutcome) : List Path → BatchOutcome × Bool
  | [] => (outcome, true)
  | path :: paths =>
    match answers.push path with
    | .pushed =>
      answers.pushAll { outcome with
        objectsPushed := outcome.objectsPushed + 1
        attachmentsPushed := outcome.attachmentsPushed + if path ≠ answers.emlPath then 1 else 0 } paths
    | .failed gated => ({ outcome with gateGiveUps := outcome.gateGiveUps + if gated then 1 else 0 }, false)

/-- The counters that `deliver_one` returns. -/
def outcome (answers : MessageRun) : BatchOutcome :=
  if answers.emlExists then
    let extractionFailed := if answers.attachments.isNone then 1 else 0
    let (outcome, allPushed) := answers.pushAll { attachmentExtractionFailed := extractionFailed } answers.objects
    if allPushed then { outcome with delivered := outcome.delivered + 1 }
    else
      { outcome with
        failed := outcome.failed + 1
        failureBreakdown := { outcome.failureBreakdown with push := outcome.failureBreakdown.push + 1 } }
  else { failed := 1, failureBreakdown := { missingFile := 1 } }

def Delivered (answers : MessageRun) : Prop := answers.outcome.delivered = 1

instance (answers : MessageRun) : Decidable answers.Delivered :=
  inferInstanceAs (Decidable (answers.outcome.delivered = 1))

end MessageRun

/-- The counters of a batch whose messages were all gone through. -/
def batchOutcome (runs : List MessageRun) : BatchOutcome :=
  (runs.map MessageRun.outcome).foldl BatchOutcome.merge {}

def serverOverloadedSignatures : List Text :=
  ["too many simultaneous connections".toList, "too many connections".toList, "too many requests".toList,
    "try again later".toList, "temporarily unavailable".toList, "server unavailable".toList, "over quota".toList,
    "rate limit".toList, "throttl".toList]

def isServerOverloadedError (err : Text) : Bool :=
  serverOverloadedSignatures.any fun signature => decide (signature <:+: err.map Char.toLower)

/-- Whether the batch may be requeued, with what the gate decides if it is asked. -/
def waitOutImapOutage (err : Text) (decision : GateDecision) : Bool :=
  !isServerOverloadedError err || decision == .retry

def requeueOrNone (item : QueueItem) : Option QueueItem :=
  match item.attemptsRemaining with
  | 0 => none
  | attemptsRemaining + 1 => some { item with attemptsRemaining }

structure WorkerConnection where
  identityIndex : Nat
  mailbox : Text
deriving DecidableEq, Repr

inductive Phase where
  | ready
  | working (item : QueueItem)
  | failing (item : QueueItem) (step : BatchFailureStep) (err : Text)
  | requeueing (item : QueueItem)
  | exited
deriving DecidableEq, Repr

structure ImportWorker where
  phase : Phase := .ready
  connection : Option WorkerConnection := none
  outcome : BatchOutcome := {}
deriving DecidableEq, Repr

namespace ImportWorker

def needsConnect (worker : ImportWorker) (item : QueueItem) : Bool :=
  worker.connection.all fun conn => conn.identityIndex != item.identityIndex

def needsExamine (worker : ImportWorker) (item : QueueItem) : Bool :=
  worker.connection.all fun conn => conn.mailbox != item.batch.mailbox

/-- The `None` branch of `record_dropped_or_requeued`, after the give-ups of the gate are counted. -/
def drop (worker : ImportWorker) (item : QueueItem) (step : BatchFailureStep) (mayRetry : Bool) : ImportWorker :=
  { worker with
    phase := .ready
    outcome := { worker.outcome with
      failed := worker.outcome.failed + item.batch.uids.length
      gateGiveUps := worker.outcome.gateGiveUps + if mayRetry then 0 else item.batch.uids.length
      failureBreakdown := step.charge item.batch.uids.length worker.outcome.failureBreakdown } }

end ImportWorker

inductive WorkerEvent where
  | pop
  | connect (err : Option Text)
  | examine (err : Option Text)
  | process (result : Except Text (List MessageRun))
  | recover (decision : GateDecision)
  | requeue

structure DeliveryJob (workers : Nat) where
  queue : List QueueItem
  worker : Fin workers → ImportWorker
  /-- The UIDs that were counted, and the batches that were taken from the queue, in any order. -/
  delivered : List (Nat × LedgerKey)
  failed : List (Nat × LedgerKey)
  attempts : List (Nat × Batch)

namespace DeliveryJob

variable {workers : Nat}

def start (workers : Nat) (pendingByIdentity : List (List PendingMailbox)) (batchSize : Nat) :
    DeliveryJob workers where
  queue := allBatches pendingByIdentity batchSize
  worker _ := {}
  delivered := []
  failed := []
  attempts := []

def put (s : DeliveryJob workers) (w : Fin workers) (worker : ImportWorker) : DeliveryJob workers :=
  { s with worker := Function.update s.worker w worker }

def counted (item : QueueItem) (runs : List MessageRun) (delivered : Bool) : List (Nat × LedgerKey) :=
  ((item.keys.zip runs).filter fun entry => decide entry.2.Delivered == delivered).map Prod.fst

def step (s : DeliveryJob workers) (event : Fin workers × WorkerEvent) : Option (DeliveryJob workers) :=
  let w := event.1
  let worker := s.worker w
  match worker.phase, event.2 with
  | .ready, .pop =>
    match s.queue with
    | [] => some (s.put w { worker with phase := .exited })
    | item :: queue =>
      some { s.put w { worker with phase := .working item } with queue, attempts := item.work :: s.attempts }
  | .working item, .connect err =>
    if worker.needsConnect item then
      match err with
      | none => some (s.put w { worker with connection := some { identityIndex := item.identityIndex, mailbox := [] } })
      | some err => some (s.put w { worker with phase := .failing item .connect err, connection := none })
    else none
  | .working item, .examine err =>
    if !worker.needsConnect item && worker.needsExamine item then
      match err with
      | none =>
        some (s.put w { worker with
          connection := some { identityIndex := item.identityIndex, mailbox := item.batch.mailbox } })
      | some err => some (s.put w { worker with phase := .failing item .examine err, connection := none })
    else none
  | .working item, .process result =>
    if !worker.needsConnect item && !worker.needsExamine item then
      match result with
      | .ok runs =>
        if runs.length = item.batch.uids.length then
          some { s.put w { worker with phase := .ready, outcome := worker.outcome.merge (batchOutcome runs) } with
            delivered := counted item runs true ++ s.delivered
            failed := counted item runs false ++ s.failed }
        else none
      | .error err => some (s.put w { worker with phase := .failing item .fetch err, connection := none })
    else none
  | .failing item failure err, .recover decision =>
    let mayRetry := waitOutImapOutage err decision
    match if mayRetry then requeueOrNone item else none with
    | some item => some (s.put w { worker with phase := .requeueing item })
    | none => some { s.put w (worker.drop item failure mayRetry) with failed := item.keys ++ s.failed }
  | .requeueing item, .requeue =>
    some { s.put w { worker with phase := .ready } with queue := s.queue ++ [item] }
  | _, _ => none

def summary (s : DeliveryJob workers) : BatchOutcome :=
  ((List.finRange workers).map fun w => (s.worker w).outcome).foldl BatchOutcome.merge {}

end DeliveryJob

end Pigeon.EmailImport
