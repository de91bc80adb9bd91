import Pigeon.Dispatch.Input
import Pigeon.Transform.Report

/-! # From the flags to the exit code

A dispatch asks for what its flags leave open, shows what it is about to do, asks whether to go on, and runs its job. What the job
came to is put away in a bucket, and gives the exit code.
-/
namespace Pigeon.Dispatch

open Library Keyring Rclone Transform Wizard

set_option autoImplicit false

/-! ## The keyring and the tools -/

def loadKeyring : Wizard Store := do
  let path ← orFail id (← ask .resolvePath)
  let override : Option Text ← ask .keyringPathOverride
  match override with
  | some explicit =>
    let found : Bool ← ask (.fileExists explicit)
    if !found then throw (.failed ("--keyring-path ".toList ++ explicit ++ " does not exist".toList))
    orFail id (← ask (.loadStore path))
  | none => orFail id (← ask (.loadStore path))

def rcloneMissing : Text := "'rclone' was not found on PATH -- required for every bucket-addressed job".toList

def prepareRclone (store : Store) : Wizard Unit := do
  let _ ← orFail (fun _ => rcloneMissing) (← ask (.start "rclone".toList "version".toList))
  let path ← orFail id (← ask .rcloneConfigPath)
  orFail id (← ask (.writeSandboxedConfig store path))

def missing (binary why : Text) : Text := "'".toList ++ binary ++ "' was not found on PATH -- ".toList ++ why

/-- Whether it succeeds is not looked at. -/
def checkFfmpegAvailable : Wizard Unit := do
  let why := "required for 'pigeon job run transform' to transcode images".toList
  let _ ← orFail (fun _ => missing "ffmpeg".toList why) (← ask (.start "ffmpeg".toList "-version".toList))
  let _ ← orFail (fun _ => missing "ffprobe".toList why) (← ask (.start "ffprobe".toList "-version".toList))

/-- `why` is what follows a binary that is not there, `whyFailed` what follows one that fails. -/
def checkVersion (binary why whyFailed : Text) : Wizard Unit := do
  let output ← orFail (fun _ => missing binary why) (← ask (.start binary "--version".toList))
  if !output.success then
    throw (.failed ("'".toList ++ binary ++ " --version' failed (exit ".toList ++ output.code ++ ") -- ".toList ++ whyFailed ++
      " stderr: ".toList ++ Text.trim output.stderr))

def checkBinary (binary why : Text) : Wizard Unit := checkVersion binary why (why ++ ['.'])

def checkSofficeAvailable : Wizard Unit :=
  checkVersion "soffice".toList
    ("required for 'pigeon job run transform' with an Apple Numbers or document input kind " ++
      "(doc, docx, pages, rtf, pptx, key)").toList
    "required for 'pigeon job run transform' with an Apple Numbers or document input kind.".toList

def checkCalibreAvailable : Wizard Unit :=
  checkBinary "ebook-convert".toList ("required for 'pigeon job run transform --input-file-type epub'. LibreOffice cannot " ++
    "read EPUB (its filter is export-only), so this kind needs Calibre").toList

def checkPandocAvailable : Wizard Unit :=
  checkBinary "pandoc".toList ("required for 'pigeon job run transform' with a markdown or reStructuredText input kind " ++
    "(md, markdown, mkd, rst)").toList

def checkGhostscriptAvailable : Wizard Unit :=
  checkBinary "gs".toList ("required for 'pigeon job run transform --input-file-type eps'. LibreOffice alone " ++
    "turns an EPS into an empty page, so Ghostscript converts it to PDF first").toList

/-- The binaries that a kind is converted with. -/
inductive ExternalConverter where
  | none
  | ffmpeg
  | soffice
  | calibre
  | pandoc
  | ghostscriptThenSoffice
deriving DecidableEq, Repr

def converterFor : InputFileType → ExternalConverter
  | .png | .jpeg | .heic | .mov | .m4v | .mp4 | .mp4Audio | .m4a | .mp3 | .aac | .wav | .opus | .avif | .tif | .tiff | .webp | .ico
  | .icns | .bmp => .ffmpeg
  | .numbers | .doc | .docx | .pages | .rtf | .pptx | .key | .ai | .emz => .soffice
  | .epub => .calibre
  | .md | .rst => .pandoc
  | .eps => .ghostscriptThenSoffice
  | .xlsx | .xls | .csv | .tsv | .pdf | .txt | .textclipping | .svg | .procreate | .procreate2 | .ics | .vcf => .none

def requiredConverterAvailable (kind : InputFileType) : Wizard Unit :=
  match converterFor kind with
  | .none => pure ()
  | .ffmpeg => checkFfmpegAvailable
  | .soffice => checkSofficeAvailable
  | .calibre => checkCalibreAvailable
  | .pandoc => checkPandocAvailable
  | .ghostscriptThenSoffice => do
    checkGhostscriptAvailable
    checkSofficeAvailable

/-! ## What is left behind -/

def resolveDebugLogBucket (flag : Option Text) (store : Store) (nonInteractive : Bool) : Wizard BucketConfig := do
  let aliasName ← (debugLogBucketInput flag store).resolve nonInteractive
  match store.bucketConfigs.find? fun bucketConfig => bucketConfig.aliasName == aliasName with
  | some bucketConfig => return bucketConfig
  | none => throw (.failed ("no bucket-config named '".toList ++ aliasName ++ "'".toList))

/-- The id of a run and the prefix of what it leaves in the bucket. -/
structure RunId where
  id : Text
  keyPrefix : Text

def generateRun (jobName : Text) : Wizard RunId := do
  let id : Text ← ask .generateRunId
  let today : Text ← ask .today
  return ⟨id, today ++ '-' :: (jobName ++ '-' :: id)⟩

def newTranscript (localOutput : Text) : Wizard Text := do
  let path := Text.joinPath localOutput "transcript.txt".toList
  orFail id (← ask (.createTranscript path))
  return path

def say (message : Text) : Wizard Unit := do
  ask (.println message)
  ask (.transcript message)

def failureExitCode : Nat := 1

def fail (message : Text) : Wizard Nat := do
  ask (.eprintln ("Error: ".toList ++ message))
  return failureExitCode

/-- What an upload comes to is not looked at. -/
def uploadRunArtifacts (bucketConfig : BucketConfig) (run : RunId) (reportPath transcriptPath : Text) : Wizard Unit := do
  let destination := (RemoteTarget.bucketRoot bucketConfig.aliasName).address
  let _ ← ask (.upload destination (run.keyPrefix ++ "/report.txt".toList) reportPath)
  let _ ← ask (.upload destination (run.keyPrefix ++ "/transcript.txt".toList) transcriptPath)
  let extract : Except Text (Option Text) ← ask (.writeRunLogExtract run.id reportPath)
  match extract with
  | .ok (some extractPath) =>
    let _ ← ask (.upload destination (run.keyPrefix ++ "/pigeon.jsonl".toList) extractPath)
    ask (.removeFile extractPath)
  | _ => return

/-- The question before every job. -/
def confirm (nonInteractive : Bool) : Wizard Unit := do
  let goOn ← (confirmInput nonInteractive).resolve nonInteractive
  if !goOn then
    ask (.println "Cancelled.".toList)
    throw .cancelled

def createLocalOutput (localOutput : Text) : Wizard Unit := do
  orFail (fun err => "failed to create ".toList ++ localOutput ++ ": ".toList ++ err) (← ask (.createDirAll localOutput))

def showNat (n : Nat) : Text := Nat.toDigits 10 n

/-- The last steps of a run, with its exit code. -/
def conclude (bucketConfig : BucketConfig) (run : RunId) (transcriptPath : Text) (outcome : Nat × Text) : Wizard Nat := do
  ask (.println ("Report: ".toList ++ outcome.2))
  uploadRunArtifacts bucketConfig run outcome.2 transcriptPath
  return outcome.1

/-- A job that came to its end, with what is said of it and where its report is. -/
def concluded (message : Text) (failed : Bool) (reportPath : Text) : Wizard (Nat × Text) := do
  say message
  return (if failed then failureExitCode else 0, reportPath)

def sayError (err : Text) : Wizard Unit := say ("Error: ".toList ++ err)

/-- A job that failed. -/
def broken (err reportPath : Text) : Wizard (Nat × Text) := do
  sayError err
  return (← fail err, reportPath)

/-! ## The jobs of `rclone` -/

structure CopyFlags where
  sourceBucket : Option Text
  destinationBucket : Option Text
  localOutput : Option Text
  debugLogBucket : Option Text
  transfers : Option Nat
  checkers : Option Nat
  tpslimit : Option Nat
  jobName : Text
  nonInteractive : Bool

def rcloneLocalOutput : Text := "Local directory this run's rclone log and transcript are written under".toList

def dispatchCopy (machine : Machine) (flags : CopyFlags) : Wizard Nat := do
  let store ← loadKeyring
  prepareRclone store
  let source ← (bucketInput flags.sourceBucket store "--source-bucket".toList none).resolve flags.nonInteractive
  let destination ← (bucketInput flags.destinationBucket store "--destination-bucket".toList none).resolve flags.nonInteractive
  let localOutput ← (localOutputInput machine flags.localOutput rcloneLocalOutput).resolve flags.nonInteractive
  let transfers ← (transfersInput flags.transfers).resolve flags.nonInteractive
  let checkers ← (checkersInput flags.checkers).resolve flags.nonInteractive
  let tpslimit ← (tpslimitInput flags.tpslimit).resolve flags.nonInteractive
  let debugLogBucket ← resolveDebugLogBucket flags.debugLogBucket store flags.nonInteractive
  ask (.println ("Source:      ".toList ++ source.address))
  ask (.println ("Destination: ".toList ++ destination.address))
  confirm flags.nonInteractive
  createLocalOutput localOutput
  let run ← generateRun flags.jobName
  let transcriptPath ← newTranscript localOutput
  let logPath := Text.joinPath localOutput ("rclone-".toList ++ run.id ++ ".jsonl".toList)
  let result : Except Text CopySummary ← ask
    (.run (.copy ⟨source.address, destination.address, logPath, transfers, checkers, tpslimit⟩))
  let outcome ← match result with
    | .ok summary => concluded ("Transferred ".toList ++ showNat summary.transferred ++ " file(s) (".toList ++ showNat summary.bytes ++
        " bytes), ".toList ++ showNat summary.errors ++ " error(s).".toList) (summary.errors > 0) summary.logPath
    | .error err => broken err logPath
  conclude debugLogBucket run transcriptPath outcome

structure DeleteFlags where
  sourceBucket : Option Text
  localOutput : Option Text
  debugLogBucket : Option Text
  checkers : Option Nat
  jobName : Text
  nonInteractive : Bool

def deleteWarning : Text :=
  "WARNING: this will recursively and permanently delete everything under this path.".toList

def dispatchDelete (machine : Machine) (flags : DeleteFlags) : Wizard Nat := do
  let store ← loadKeyring
  prepareRclone store
  let source ← (bucketInput flags.sourceBucket store "--source-bucket".toList none).resolve flags.nonInteractive
  let localOutput ← (localOutputInput machine flags.localOutput rcloneLocalOutput).resolve flags.nonInteractive
  let checkers ← (checkersInput flags.checkers).resolve flags.nonInteractive
  let debugLogBucket ← resolveDebugLogBucket flags.debugLogBucket store flags.nonInteractive
  ask (.println ("Source: ".toList ++ source.address))
  ask (.println deleteWarning)
  confirm flags.nonInteractive
  createLocalOutput localOutput
  let run ← generateRun flags.jobName
  let transcriptPath ← newTranscript localOutput
  let logPath := Text.joinPath localOutput ("rclone-purge-".toList ++ run.id ++ ".jsonl".toList)
  let result : Except Text DeleteSummary ← ask (.run (.delete ⟨source.address, logPath, checkers⟩))
  let outcome ← match result with
    | .ok summary => concluded ("Deleted ".toList ++ showNat summary.deleted ++ " object(s), ".toList ++ showNat summary.errors ++
        " error(s).".toList) (summary.errors > 0) summary.logPath
    | .error err => broken err logPath
  conclude debugLogBucket run transcriptPath outcome

/-! ## The conversion -/

structure TransformFlags where
  inputFileType : Option Text
  videoQuality : Option Text
  audioQuality : Option Text
  source : Option Text
  destination : Option Text
  localOutput : Option Text
  concurrency : Option Nat
  downloadTransfers : Option Nat
  downloadCheckers : Option Nat
  uploadTransfers : Option Nat
  maxPendingDownloads : Option Nat
  tpslimit : Option Nat
  debugLogBucket : Option Text
  jobName : Text
  nonInteractive : Bool

def summaryMessage (summary : TransformSummary) : Text :=
  "Pulled ".toList ++ showNat summary.pulled ++ " file(s); ".toList ++ showNat summary.tally.transcoded ++ " transcoded, ".toList ++
    showNat summary.tally.copiedThrough ++ " copied through, ".toList ++ showNat summary.tally.failed ++ " failed; pushed ".toList ++
    showNat summary.pushed ++ " output file(s).".toList ++
    (if summary.skippedAlreadyDone > 0 ∨ summary.skippedAppleDouble > 0 then
      " Skipped ".toList ++ showNat summary.skippedAlreadyDone ++ " already done, ".toList ++ showNat summary.skippedAppleDouble ++
        " AppleDouble sidecar(s).".toList
    else []) ++
    (if summary.failed then
      " Failures by stage: ".toList ++ showNat summary.failures.pull ++ " pull, ".toList ++ showNat summary.failures.transcode ++
        " transcode, ".toList ++ showNat summary.failures.place ++ " place, ".toList ++ showNat summary.failures.push ++ " push.".toList
    else [])

/-- The lines that are shown before the question. -/
def transformLines (kind : InputFileType) (videoQuality : VideoQuality) (audioQuality : AudioQuality) (source destination : Text) :
    List Text :=
  ["Input file type: ".toList ++ kind.name] ++
    (if kind.isVideo then ["Video quality:   ".toList ++ videoQuality.asStr] else []) ++
    (if kind.isAudio then ["Audio quality:   ".toList ++ audioQuality.asStr] else []) ++
    ["Source:          ".toList ++ source, "Destination:     ".toList ++ destination]

def printLines : List Text → Wizard Unit
  | [] => pure ()
  | line :: lines => do
    ask (.println line)
    printLines lines

/-- The kind comes first, since the binaries that a run needs depend on it. -/
def dispatchTransform (machine : Machine) (flags : TransformFlags) : Wizard Nat := do
  let kind ← (inputFileTypeInput flags.inputFileType).resolve flags.nonInteractive
  requiredConverterAvailable kind
  let store ← loadKeyring
  prepareRclone store
  let videoQuality ← if kind.isVideo then (videoQualityInput flags.videoQuality).resolve flags.nonInteractive else pure .medium
  let audioQuality ← if kind.isAudio then (audioQualityInput flags.audioQuality kind).resolve flags.nonInteractive
    else pure kind.defaultAudioQuality
  let source ← (bucketInput flags.source store "--source".toList (some kind.canonicalExtension)).resolve flags.nonInteractive
  let destination ← (bucketInput flags.destination store "--destination".toList (some kind.outputExtension)).resolve
    flags.nonInteractive
  let localOutput ← (localOutputInput machine flags.localOutput
    "Local directory this run stages source/result/bookkeeping under".toList).resolve flags.nonInteractive
  let concurrency ← (cpuConcurrencyInput machine flags.concurrency).resolve flags.nonInteractive
  let downloadTransfers ← (downloadTransfersInput flags.downloadTransfers).resolve flags.nonInteractive
  let downloadCheckers ← (downloadCheckersInput flags.downloadCheckers).resolve flags.nonInteractive
  let uploadTransfers ← (uploadTransfersInput flags.uploadTransfers).resolve flags.nonInteractive
  let maxPendingDownloads ← (maxPendingDownloadsInput flags.maxPendingDownloads concurrency).resolve flags.nonInteractive
  let tpslimit ← (tpslimitInput flags.tpslimit).resolve flags.nonInteractive
  let debugLogBucket ← resolveDebugLogBucket flags.debugLogBucket store flags.nonInteractive
  printLines (transformLines kind videoQuality audioQuality source.address destination.address)
  confirm flags.nonInteractive
  createLocalOutput localOutput
  let run ← generateRun flags.jobName
  let transcriptPath ← newTranscript localOutput
  let result : Except Text TransformSummary ← ask (.run (.transform
    { sourcePath := source.address, destinationPath := destination.address, localOutput, inputFileType := kind, videoQuality, audioQuality,
      downloadTransfers, downloadCheckers, tpslimit, maxPendingDownloads, runId := run.id } concurrency uploadTransfers))
  let outcome ← match result with
    | .ok summary => do
      say (summaryMessage summary)
      let reportPath := Text.joinPath localOutput "transform-report.txt".toList
      let _ ← ask (.writeReport reportPath)
      pure (if summary.failed then failureExitCode else 0, reportPath)
    | .error err => do
      sayError err
      let reportPath := Text.joinPath localOutput (flags.jobName ++ "-report.txt".toList)
      let _ ← ask (.writeReport reportPath)
      pure (← fail err, reportPath)
  conclude debugLogBucket run transcriptPath outcome

/-! ## The exit code -/

inductive Command where
  | copy (flags : CopyFlags)
  | delete (flags : DeleteFlags)
  | transform (flags : TransformFlags)

def Command.nonInteractive : Command → Bool
  | .copy flags => flags.nonInteractive
  | .delete flags => flags.nonInteractive
  | .transform flags => flags.nonInteractive

def Command.wizard (machine : Machine) : Command → Wizard Nat
  | .copy flags => dispatchCopy machine flags
  | .delete flags => dispatchDelete machine flags
  | .transform flags => dispatchTransform machine flags

def dispatch (machine : Machine) (command : Command) : Talk Action Action.Reply Nat := do
  match ← (command.wizard machine).run with
  | .ok exitCode => return exitCode
  | .error .cancelled => return 0
  | .error (.failed err) => .ask (.eprintln ("Error: ".toList ++ err)) fun _ => .done failureExitCode

end Pigeon.Dispatch
