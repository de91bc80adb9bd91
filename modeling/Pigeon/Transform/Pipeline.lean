import Pigeon.Library.Runs
import Pigeon.Core.Data

/-! # The pipeline loop

One task pulls the source files while up to `concurrency` conversions run. The loop starts
conversions, then waits for one thing to happen: a file is reported copied, a conversion
finishes, the pull exits. A circuit breaker stops the dispatch when the first conversions
nearly all fail in a way that no retry mends, and the pull is paused while the backlog is
long.
-/
namespace Pigeon.Transform

open Library Pigeon.Core

set_option autoImplicit false

inductive FailureStage where
  | pull
  | transcode
  | place
  | push
deriving DecidableEq, Repr

inductive Outcome where
  | transcoded
  | copiedThrough
  | failed
  | skippedEmailShaped
deriving DecidableEq, Repr

inductive Processed where
  | pushed (finalPaths : List Text)
  /-- With the description of the signals that were found. -/
  | skippedEmailShaped (signals : Text)
deriving DecidableEq, Repr

abbrev ProcessResult := Except (FailureStage × Text) Processed

structure FailureBreakdown where
  pull : Nat
  transcode : Nat
  place : Nat
  push : Nat
deriving DecidableEq, Repr

def FailureBreakdown.record (failures : FailureBreakdown) : FailureStage → FailureBreakdown
  | .pull => { failures with pull := failures.pull + 1 }
  | .transcode => { failures with transcode := failures.transcode + 1 }
  | .place => { failures with place := failures.place + 1 }
  | .push => { failures with push := failures.push + 1 }

def FailureBreakdown.total (failures : FailureBreakdown) : Nat :=
  failures.pull + failures.transcode + failures.place + failures.push

structure FileOutcome where
  relativePath : Text
  destinationFilenames : List Text
  outcome : Outcome
  stage : Option FailureStage
  detail : Text
deriving DecidableEq, Repr

structure PendingFile where
  sourceKey : Text
  absolutePath : Text
deriving DecidableEq, Repr

/-! ## The marks -/

/-- `CpuConcurrencyInput`: a flag is clamped to `ceiling`, a prompt is not, and without
either there is no run. -/
def resolveConcurrency (ceiling : Nat) (flag prompt : Option Nat) : Option Nat :=
  match flag, prompt with
  | some value, _ => some (min (max value 1) ceiling)
  | none, some value => some (max value 1)
  | none, none => none

/-- `MaxPendingDownloadsInput`, whose default depends on the resolved concurrency. -/
def resolveMaxPendingDownloads (concurrency : Nat) (flag prompt : Option Nat) : Nat :=
  match flag, prompt with
  | some value, _ => max value 1
  | none, some value => max value 1
  | none, none => concurrency * 4

structure Plan where
  concurrency : Nat
  maxPendingDownloads : Nat
  sourceDir : Text
  /-- `outcome_for` the plan's input file type -/
  outcome : Outcome
  isComplete : Text → Bool
  /-- What the wizard admits. -/
  maxPendingDownloads_pos : 0 < maxPendingDownloads

namespace Plan

def highWaterMark (plan : Plan) : Nat := plan.maxPendingDownloads

def lowWaterMark (plan : Plan) : Nat := max (plan.highWaterMark / 2) 1

def workers (plan : Plan) : Nat := max plan.concurrency 1

end Plan

theorem resolveMaxPendingDownloads_pos {ceiling concurrency : Nat} (hCeiling : 0 < ceiling)
    {flag prompt : Option Nat} (hConcurrency : resolveConcurrency ceiling flag prompt = some concurrency)
    (mark markPrompt : Option Nat) : 0 < resolveMaxPendingDownloads concurrency mark markPrompt := by
  have hPositive : 0 < concurrency := by
    unfold resolveConcurrency at hConcurrency
    split at hConcurrency
    · cases hConcurrency
      omega
    · cases hConcurrency
      omega
    · cases hConcurrency
  unfold resolveMaxPendingDownloads
  split
  · omega
  · omega
  · omega

/-! ## The circuit breaker -/

def circuitBreakerSampleSize : Nat := 20

def circuitBreakerTripThreshold : Nat := 18

def circuitBreakerShouldTrip (samples hits : Nat) : Bool :=
  samples == circuitBreakerSampleSize && decide (circuitBreakerTripThreshold ≤ hits)

def nonRetryableSignatures : List Text :=
  ["moov atom not found".toList, "Invalid data found when processing input".toList, "Decoder (codec".toList,
    "could not find codec parameters".toList, "refusing an output that isn't full-size".toList,
    "Unknown encoder".toList, "has no video stream".toList, "is not an audio-only recording".toList,
    "is not a readable spreadsheet".toList, "is not a readable document".toList,
    "is not a Keynote presentation".toList, "is not a readable text clipping".toList, "converter crashed".toList,
    "is not a readable icns icon".toList, "is not a readable Procreate document".toList,
    "does not match its own thumbnail".toList, "is not an iCalendar file".toList, "is not a vCard file".toList,
    "converted to an SVG that draws nothing".toList]

def isNonRetryableTranscodeError (err : Text) : Bool := nonRetryableSignatures.any fun signature => signature <:+: err

def isSkip : ProcessResult → Bool
  | .ok (.skippedEmailShaped _) => true
  | _ => false

/-- The error of a completion that speaks for a systemic cause. -/
def breakerHit : ProcessResult → Option Text
  | .error (.transcode, err) => if isNonRetryableTranscodeError err then some err else none
  | _ => none

/-! ## The loop -/

structure Pipeline where
  queue : List PendingFile
  dispatched : List Text
  inFlight : List Text
  outcomes : List FileOutcome
  pushed : Nat
  pullFinished : Bool
  copiedRxClosed : Bool
  pullPid : Option Nat
  pullIsPaused : Bool
  failures : FailureBreakdown
  skippedEmailShaped : Nat
  skippedAppleDouble : Nat
  skippedLockFile : Nat
  circuitBreakerSamples : Nat
  circuitBreakerMatches : Nat
  circuitBreakerTripped : Bool
  circuitBreakerExample : Option Text

inductive Event where
  | progressTick
  | pidReceived (pid : Option Nat)
  /-- The conversion at this place of the in-flight set finishes. -/
  | joined (index : Nat) (result : ProcessResult)
  | received (relativePath : Option Text)
  /-- The pull's task ends; with what its channel still holds. -/
  | pullExited (buffered : List Text)

/-- The paths that an event hands to `enqueue`. -/
def Event.reported : Event → List Text
  | .received (some relativePath) => [relativePath]
  | .pullExited buffered => buffered
  | _ => []

inductive EnqueueOutcome where
  | queued
  | alreadyDone
  | alreadyDispatched
  | skippedAppleDouble
  | skippedLockFile
deriving DecidableEq, Repr

namespace Pipeline

/-- The state before the loop: what the initial scan and the case-variant pulls queued. -/
def start (queue : List PendingFile) (skippedAppleDouble skippedLockFile : Nat) : Pipeline where
  queue := queue
  dispatched := queue.map PendingFile.sourceKey
  inFlight := []
  outcomes := []
  pushed := 0
  pullFinished := false
  copiedRxClosed := false
  pullPid := none
  pullIsPaused := false
  failures := ⟨0, 0, 0, 0⟩
  skippedEmailShaped := 0
  skippedAppleDouble := skippedAppleDouble
  skippedLockFile := skippedLockFile
  circuitBreakerSamples := 0
  circuitBreakerMatches := 0
  circuitBreakerTripped := false
  circuitBreakerExample := none

def backlog (s : Pipeline) : Nat := s.queue.length + s.inFlight.length

def enqueue (plan : Plan) (s : Pipeline) (relativePath : Text) : Pipeline × EnqueueOutcome :=
  if isAppleDoubleBasename relativePath then (s, .skippedAppleDouble)
  else if isExcelLockBasename relativePath then (s, .skippedLockFile)
  else if plan.isComplete relativePath then (s, .alreadyDone)
  else if relativePath ∈ s.dispatched then (s, .alreadyDispatched)
  else
    ({ s with
        dispatched := relativePath :: s.dispatched
        queue := s.queue ++ [⟨relativePath, Text.joinPath plan.sourceDir relativePath⟩] }, .queued)

/-- What the loop does with one reported path. -/
def receive (plan : Plan) (s : Pipeline) (relativePath : Text) : Pipeline :=
  if s.circuitBreakerTripped then s
  else
    match s.enqueue plan relativePath with
    | (s, .skippedAppleDouble) => { s with skippedAppleDouble := s.skippedAppleDouble + 1 }
    | (s, .skippedLockFile) => { s with skippedLockFile := s.skippedLockFile + 1 }
    | (s, _) => s

/-- The files that start while there are fewer than `workers` conversions, and those that wait. -/
def spawn (workers : Nat) : List PendingFile → List Text → List PendingFile × List Text
  | [], inFlight => ([], inFlight)
  | file :: queue, inFlight =>
    if inFlight.length < workers then spawn workers queue (inFlight ++ [file.sourceKey]) else (file :: queue, inFlight)

/-- The loop at the top of the body. -/
def dispatch (plan : Plan) (s : Pipeline) : Pipeline :=
  if s.circuitBreakerTripped then s
  else { s with queue := (spawn plan.workers s.queue s.inFlight).1, inFlight := (spawn plan.workers s.queue s.inFlight).2 }

def Finished (s : Pipeline) : Prop :=
  s.inFlight = [] ∧ s.pullFinished = true ∧ (s.queue = [] ∨ s.circuitBreakerTripped = true)

instance (s : Pipeline) : Decidable s.Finished := by unfold Finished; infer_instance

/-- A completion is sampled while the window is open; the breaker that trips resumes the pull. -/
def sample (s : Pipeline) (result : ProcessResult) : Pipeline :=
  if isSkip result = false ∧ s.circuitBreakerTripped = false ∧ s.circuitBreakerSamples < circuitBreakerSampleSize then
    let samples := s.circuitBreakerSamples + 1
    let hits := s.circuitBreakerMatches + (breakerHit result).toList.length
    let s : Pipeline := { s with
      circuitBreakerSamples := samples
      circuitBreakerMatches := hits
      circuitBreakerExample := s.circuitBreakerExample.or (breakerHit result) }
    if circuitBreakerShouldTrip samples hits then
      { s with circuitBreakerTripped := true, pullIsPaused := s.pullIsPaused && s.pullPid.isNone }
    else s
  else s

def record (plan : Plan) (s : Pipeline) (relativePath : Text) : ProcessResult → Pipeline
  | .ok (.skippedEmailShaped signals) =>
    { s with
      skippedEmailShaped := s.skippedEmailShaped + 1
      outcomes := s.outcomes ++ [⟨relativePath, [], .skippedEmailShaped, none, "email-shaped: ".toList ++ signals⟩] }
  | .ok (.pushed finalPaths) =>
    { s with
      pushed := s.pushed + finalPaths.length
      outcomes := s.outcomes ++ [⟨relativePath, finalPaths.filterMap Text.fileName, plan.outcome, none, []⟩] }
  | .error (stage, err) =>
    { s with
      failures := s.failures.record stage
      outcomes := s.outcomes ++ [⟨relativePath, [], .failed, some stage, err⟩] }

/-- The backpressure check, made after a completion while the pull runs. -/
def adjustPull (plan : Plan) (s : Pipeline) : Pipeline :=
  match s.pullPid, s.pullFinished with
  | some _, false =>
    if s.pullIsPaused = true ∧ s.backlog ≤ plan.lowWaterMark then { s with pullIsPaused := false }
    else if s.pullIsPaused = false ∧ plan.highWaterMark ≤ s.backlog then { s with pullIsPaused := true }
    else s
  | _, _ => s

/-- A conversion leaves the in-flight set and its result is sampled. -/
def complete (s : Pipeline) (index : Nat) (result : ProcessResult) : Pipeline :=
  Pipeline.sample { s with inFlight := s.inFlight.eraseIdx index } result

/-- One iteration of the loop. A paused pull is stopped, so it does not exit. -/
def step (plan : Plan) (before : Pipeline) (event : Event) : Option Pipeline :=
  let s := before.dispatch plan
  if s.Finished then none
  else
    match event with
    | .progressTick => some s
    | .pidReceived pid => some { s with pullPid := pid.or s.pullPid }
    | .joined index result =>
      match s.inFlight[index]? with
      | some relativePath => some (((s.complete index result).record plan relativePath result).adjustPull plan)
      | none => none
    | .received relativePath =>
      if s.pullFinished = false ∧ s.copiedRxClosed = false then
        match relativePath with
        | some relativePath => some (s.receive plan relativePath)
        | none => some { s with copiedRxClosed := true }
      else none
    | .pullExited buffered =>
      if s.pullFinished = false ∧ s.pullIsPaused = false then
        some (buffered.foldl (receive plan) { s with pullFinished := true, pullIsPaused := false })
      else none

end Pipeline

end Pigeon.Transform
