import Pigeon.Transform.Pipeline
import Pigeon.Transform.Placement

/-! # What a run is to pull, and how it ends

The listing of the source is filtered to the keys that still have to be pulled. Keys that share a name on
the local volume are pulled apart from the rest, into slots, before the loop. When the loop has ended the
keys that never entered it become failures of the pull.
-/
namespace Pigeon.Transform

open Library Pigeon.Core

set_option autoImplicit false

def outcomeFor : InputFileType → Outcome
  | .jpeg | .csv | .pdf | .txt | .svg => .copiedThrough
  | _ => .transcoded

structure TransformPlan where
  sourcePath : Text
  localOutput : Text
  inputFileType : InputFileType
  maxPendingDownloads : Nat
  maxPendingDownloads_pos : 0 < maxPendingDownloads

def sourceDir (localOutput : Text) : Text := Text.joinPath localOutput "source".toList

def stagingDir (localOutput : Text) : Text := Text.joinPath localOutput ".staging".toList

def caseVariantDir (localOutput : Text) : Text := Text.joinPath (stagingDir localOutput) "case-variants".toList

def caseVariantSlotDir (localOutput : Text) (slot : Nat) : Text :=
  Text.joinPath (caseVariantDir localOutput) ("slot".toList ++ Nat.toDigits 10 slot)

/-! ## The pull set -/

structure PullSelection where
  toPull : List Text
  skippedAlreadyDone : Nat
  skippedAppleDouble : Nat
  skippedLockFile : Nat
  /-- A set, in the order of the listing. -/
  caseCollisions : List Text
deriving DecidableEq, Repr

def caseInsensitiveCollisions (localFold : Text → Text) (relativePaths : List Text) : List Text :=
  (relativePaths.filter fun key => decide (1 < relativePaths.countP fun other => localFold other == localFold key)).dedup

/-- The body of the loop over the listing. -/
def considerKey (digest : Text → Digest) (sourcePath : Text) (inputFileType : InputFileType)
    (destinationGroups : DestinationGroups) (selection : PullSelection) (relativePath : Text) : PullSelection :=
  if isAppleDoubleBasename relativePath then
    { selection with skippedAppleDouble := selection.skippedAppleDouble + 1 }
  else if isExcelLockBasename relativePath then { selection with skippedLockFile := selection.skippedLockFile + 1 }
  else if destinationGroups.isComplete (groupKey digest sourcePath relativePath inputFileType).text then
    { selection with skippedAlreadyDone := selection.skippedAlreadyDone + 1 }
  else { selection with toPull := selection.toPull ++ [relativePath] }

def filesNeedingPull (digest : Text → Digest) (localFold : Text → Text) (sourceRelativePaths : List Text)
    (sourcePath : Text) (inputFileType : InputFileType) (destinationGroups : DestinationGroups) : PullSelection :=
  let selection :=
    sourceRelativePaths.foldl (considerKey digest sourcePath inputFileType destinationGroups) ⟨[], 0, 0, 0, []⟩
  { selection with caseCollisions := caseInsensitiveCollisions localFold selection.toPull }

def sortTexts (keys : List Text) : List Text := keys.insertionSort (· ≤ ·)

/-- The keys of the bulk pull and the sorted case variants. -/
def splitPullSet (filesToPull caseCollisions : List Text) : List Text × List Text :=
  (filesToPull.filter fun key => !caseCollisions.contains key, sortTexts caseCollisions)

def caseCollisionGroups (localFold : Text → Text) (caseCollisions : List Text) : List (List Text) :=
  ((caseCollisions.map localFold).dedup.map fun folded =>
    sortTexts (caseCollisions.filter fun key => localFold key == folded)).insertionSort (· ≤ ·)

/-- The beginnings of a key that name a directory or the file, outermost first. -/
def pathPrefixes (sourceKey : Text) : List Text :=
  ((sourceKey.splitOn '/').foldl (fun (before : Text × List Text) component =>
    let accumulated := (if before.1 = [] then [] else before.1 ++ ['/']) ++ component
    (accumulated, before.2 ++ [accumulated])) ([], [])).2

/-- The keys of a slot, and the spelling that each folded path of theirs has in it. -/
structure Slot where
  keys : List Text
  claimed : Text → Option Text

namespace Slot

def fits (localFold : Text → Text) (slot : Slot) (key : Text) : Bool :=
  (pathPrefixes key).all fun path => (slot.claimed (localFold path)).all (· == path)

def insert (localFold : Text → Text) (slot : Slot) (key : Text) : Slot where
  keys := slot.keys ++ [key]
  claimed := (pathPrefixes key).foldl (fun claimed path => Function.update claimed (localFold path) (some path)) slot.claimed

end Slot

/-- The first slot that the key fits takes it, a new one if there is none. -/
def assignCaseVariant (localFold : Text → Text) (key : Text) : List Slot → List Slot
  | [] => [Slot.insert localFold ⟨[], fun _ => none⟩ key]
  | slot :: slots =>
    if slot.fits localFold key then slot.insert localFold key :: slots else slot :: assignCaseVariant localFold key slots

def assignCaseVariantSlots (localFold : Text → Text) (variants : List Text) : List (List Text) :=
  (variants.foldl (fun slots key => assignCaseVariant localFold key slots) []).map Slot.keys

structure RcloneLogSummary where
  transferred : Nat
  errors : Nat
  bytes : Nat
  duplicateNotices : Nat
deriving DecidableEq, Repr

def RcloneLogSummary.add (total summary : RcloneLogSummary) : RcloneLogSummary where
  transferred := total.transferred + summary.transferred
  errors := total.errors + summary.errors
  bytes := total.bytes + summary.bytes
  duplicateNotices := total.duplicateNotices + summary.duplicateNotices

/-! ## The job -/

/-- A plan with what the run finds: the destination's file names, the source keys of the files on disk, the
listing of the source, what the pull of each slot returns and which local paths are files after the pulls.
`localFold` is the name that a key has on the local volume. -/
structure TransformJob where
  plan : TransformPlan
  concurrency : Nat
  digest : Text → Digest
  localFold : Text → Text
  existingDestinationFilenames : List Text
  alreadyOnDisk : List Text
  sourceRelativePaths : List Text
  slotPull : Nat → List Text → Except Text RcloneLogSummary
  isFile : Text → Bool

/-- What is there when the loop starts. -/
structure Intake where
  pipeline : Pipeline
  caseVariantFailures : Text → Option Text
  caseVariantSummary : RcloneLogSummary

structure TransformSummary where
  outcomes : List FileOutcome
  pulled : Nat
  pushed : Nat
  failed : Bool
  failures : FailureBreakdown
  skippedAlreadyDone : Nat
  skippedAppleDouble : Nat
  skippedLockFile : Nat
  skippedEmailShaped : Nat
  pullErrors : Nat
  caseCollisionGroups : List (List Text)
deriving DecidableEq, Repr

def undeliveredDetail (relativePath : Text) (caseCollisions : List Text) (caseVariantFailures : Text → Option Text) :
    Text :=
  match caseVariantFailures relativePath with
  | some err =>
    "this source key collides with another under case-folding, so it was pulled ".toList ++
      "separately to its own local path (CLI-0152/0156) -- and that pull failed: ".toList ++ err
  | none =>
    if caseCollisions.contains relativePath then
      "this source key collides with another under case-folding and should have been pulled ".toList ++
        "separately, but it never entered the pipeline and its own pull reported no error".toList
    else
      "file was in this run's pull set but rclone never reported it as copied, so it never ".toList ++
        "entered the transcode pipeline".toList

def circuitBreakerMessage (circuitBreakerExample : Option Text) : Text :=
  "transform circuit breaker tripped: at least ".toList ++ Nat.toDigits 10 circuitBreakerTripThreshold ++
    " of the first ".toList ++ Nat.toDigits 10 circuitBreakerSampleSize ++
    " completed files failed transcoding with the same deterministic error signature. ".toList ++
    "That is a systemic problem, not isolated bad source files, so the run is being aborted instead of ".toList ++
    "grinding through every remaining file with a guaranteed-identical failure. The usual causes: ".toList ++
    "(1) the wrong --input-file-type for what this source actually holds -- e.g. a mp4-audio run ".toList ++
    "pointed at real video, or vice versa (CLI-0143); a spreadsheet kind pointed at something that is ".toList ++
    "not a workbook (CLI-0149); or a document kind pointed at something unreadable, which for `key` ".toList ++
    "specifically means a file that is not an iWork container at all, often a private key (CLI-0154); ".toList ++
    "or (2) an environment/capability gap, the converter on this job's host lacking support for this ".toList ++
    "input's format or a feature it uses -- `ffmpeg` for image/video/audio kinds, `soffice` for ".toList ++
    "numbers/doc/docx/pages/rtf/pptx/key, `ebook-convert` for epub, and `pandoc` for md/rst; ".toList ++
    "or (3) the converter itself crashing, which says `converter crashed` and is not the files' ".toList ++
    "fault (CLI-0158). The example error below distinguishes them. Example error: ".toList ++
    circuitBreakerExample.getD "<no example captured>".toList

namespace Pipeline

def enqueueVariant (s : Pipeline) (file : PendingFile) : Pipeline :=
  if s.dispatched.contains file.sourceKey then s
  else { s with dispatched := file.sourceKey :: s.dispatched, queue := s.queue ++ [file] }

/-- The reconciliation of one key of the pull set. -/
def reconcile (detail : Text → Text) (s : Pipeline) (relativePath : Text) : Pipeline :=
  if s.dispatched.contains relativePath then s
  else
    { s with
      failures := s.failures.record .pull
      outcomes := s.outcomes ++ [⟨relativePath, [], .failed, some .pull, detail relativePath⟩] }

end Pipeline

namespace TransformJob

variable (job : TransformJob)

def destinationGroups : DestinationGroups := DestinationGroups.index job.existingDestinationFilenames

/-- The parameters of the loop. -/
def loopPlan : Plan where
  concurrency := job.concurrency
  maxPendingDownloads := job.plan.maxPendingDownloads
  sourceDir := sourceDir job.plan.localOutput
  outcome := outcomeFor job.plan.inputFileType
  isComplete := fun relativePath =>
    job.destinationGroups.isComplete (groupKey job.digest job.plan.sourcePath relativePath job.plan.inputFileType).text
  maxPendingDownloads_pos := job.plan.maxPendingDownloads_pos

def selection : PullSelection :=
  filesNeedingPull job.digest job.localFold job.sourceRelativePaths job.plan.sourcePath job.plan.inputFileType
    job.destinationGroups

def filesToPull : List Text := job.selection.toPull

def caseVariantKeys : List Text := (splitPullSet job.filesToPull job.selection.caseCollisions).2

def slots : List (List Text) := assignCaseVariantSlots job.localFold job.caseVariantKeys

def scan : Pipeline :=
  let s := job.alreadyOnDisk.foldl (Pipeline.receive job.loopPlan) (Pipeline.start [] 0 0)
  { s with
    skippedAppleDouble := s.skippedAppleDouble + job.selection.skippedAppleDouble
    skippedLockFile := s.skippedLockFile + job.selection.skippedLockFile }

def slotPath (slot : Nat) (sourceKey : Text) : Text :=
  Text.joinPath (caseVariantSlotDir job.plan.localOutput slot) sourceKey

def collectVariant (slot : Nat) (slotError : Option Text) (intake : Intake) (sourceKey : Text) : Intake :=
  if job.isFile (job.slotPath slot sourceKey) then
    { intake with pipeline := intake.pipeline.enqueueVariant ⟨sourceKey, job.slotPath slot sourceKey⟩ }
  else
    match slotError with
    | some err => { intake with caseVariantFailures := Function.update intake.caseVariantFailures sourceKey (some err) }
    | none => intake

def collectSlot (intake : Intake) (slot : List Text × Nat) : Intake :=
  match job.slotPull slot.2 slot.1 with
  | .ok summary =>
    slot.1.foldl (job.collectVariant slot.2 none)
      { intake with caseVariantSummary := intake.caseVariantSummary.add summary }
  | .error err => slot.1.foldl (job.collectVariant slot.2 (some err)) intake

def intake : Intake := job.slots.zipIdx.foldl job.collectSlot ⟨job.scan, fun _ => none, ⟨0, 0, 0, 0⟩⟩

def detail (relativePath : Text) : Text :=
  undeliveredDetail relativePath job.selection.caseCollisions job.intake.caseVariantFailures

def finish (s : Pipeline) (pullResult : Except Text RcloneLogSummary) : Except Text TransformSummary :=
  match pullResult with
  | .error err => .error err
  | .ok pullSummary =>
    if s.circuitBreakerTripped then .error (circuitBreakerMessage s.circuitBreakerExample)
    else
      let pullSummary := pullSummary.add job.intake.caseVariantSummary
      let s := job.filesToPull.foldl (Pipeline.reconcile job.detail) s
      .ok
        { outcomes := s.outcomes
          pulled := pullSummary.transferred
          pushed := s.pushed
          failed := s.outcomes.any fun outcome => outcome.outcome == .failed
          failures := s.failures
          skippedAlreadyDone := job.selection.skippedAlreadyDone
          skippedAppleDouble := s.skippedAppleDouble
          skippedLockFile := s.skippedLockFile
          skippedEmailShaped := s.skippedEmailShaped
          pullErrors := pullSummary.errors
          caseCollisionGroups := caseCollisionGroups job.localFold job.selection.caseCollisions }

end TransformJob

end Pigeon.Transform
