import Pigeon.Library.Failing
import Pigeon.Rclone.Config
import Pigeon.Transform.Format

/-! # What a wizard asks for

Each value comes from its flag, from the operator, or from a fallback, in that order. The terminal, the disk and the tools may
answer anything.
-/
namespace Pigeon.Dispatch

open Library Keyring Rclone Transform

set_option autoImplicit false

/-! ## The jobs and what a wizard does -/

structure CopyPlan where
  source : Text
  destination : Text
  logPath : Text
  transfers : Nat
  checkers : Nat
  tpslimit : Option Nat
deriving DecidableEq, Repr

structure DeletePlan where
  source : Text
  logPath : Text
  checkers : Nat
deriving DecidableEq, Repr

structure TransformPlan where
  sourcePath : Text
  destinationPath : Text
  localOutput : Text
  inputFileType : InputFileType
  videoQuality : VideoQuality
  audioQuality : AudioQuality
  downloadTransfers : Nat
  downloadCheckers : Nat
  tpslimit : Option Nat
  maxPendingDownloads : Nat
  runId : Text
deriving DecidableEq, Repr

inductive Job where
  | copy (plan : CopyPlan)
  | delete (plan : DeletePlan)
  | transform (plan : TransformPlan) (concurrency uploadTransfers : Nat)
deriving DecidableEq, Repr

structure CopySummary where
  transferred : Nat
  errors : Nat
  bytes : Nat
  logPath : Text

structure DeleteSummary where
  deleted : Nat
  errors : Nat
  logPath : Text

abbrev Job.Summary : Job → Type
  | .copy _ => CopySummary
  | .delete _ => DeleteSummary
  | .transform _ _ _ => TransformSummary

inductive Action where
  | resolvePath
  | rcloneConfigPath
  | keyringPathOverride
  | fileExists (path : Text)
  | loadStore (path : Text)
  | start (binary arg : Text)
  | writeSandboxedConfig (store : Store) (path : Text)
  | isTerminal
  | select (prompt : Text) (items : List Text) (default : Nat)
  | interactText (prompt : Text) (default : Option Text)
  | interactNumber (prompt : Text) (default : Nat)
  | interactConfirm (prompt : Text) (default : Bool)
  | println (line : Text)
  | eprintln (line : Text)
  | createDirAll (dir : Text)
  | generateRunId
  | today
  | createTranscript (path : Text)
  | transcript (line : Text)
  | run (job : Job)
  | writeReport (path : Text)
  | upload (destination key path : Text)
  | writeRunLogExtract (runId reportPath : Text)
  | removeFile (path : Text)
deriving DecidableEq

/-- A binary that came to its end: whether it succeeded, its exit code as it is shown, and what it said. -/
structure Output where
  success : Bool
  code : Text
  stderr : Text

/-- What an action comes to, with the text of its error. -/
abbrev Action.Reply : Action → Type
  | .resolvePath => Except Text Text
  | .rcloneConfigPath => Except Text Text
  | .keyringPathOverride => Option Text
  | .fileExists _ => Bool
  | .loadStore _ => Except Text Store
  | .start _ _ => Except Text Output
  | .writeSandboxedConfig _ _ => Except Text Unit
  | .isTerminal => Bool
  | .select _ items _ => Except Text (Fin items.length)
  | .interactText _ _ => Except Text Text
  | .interactNumber _ _ => Except Text Nat
  | .interactConfirm _ _ => Except Text Bool
  | .println _ => Unit
  | .eprintln _ => Unit
  | .createDirAll _ => Except Text Unit
  | .generateRunId => Text
  | .today => Text
  | .createTranscript _ => Except Text Unit
  | .transcript _ => Unit
  | .run job => Except Text job.Summary
  | .writeReport _ => Except Text Unit
  | .upload _ _ _ => Except Text Unit
  | .writeRunLogExtract _ _ => Except Text (Option Text)
  | .removeFile _ => Unit

/-- How a wizard ends before its job. -/
inductive Stop where
  | failed (err : Text)
  | cancelled

abbrev Wizard := Failing Action Action.Reply Stop

namespace Wizard

abbrev ask (action : Action) : Wizard action.Reply := Failing.ask action

abbrev orFail {ε α : Type} (message : ε → Text) (x : Except ε α) : Wizard α := Failing.orFail (fun err => .failed (message err)) x

/-- The error of a prompt. -/
def unread (what err : Text) : Text := "failed to read ".toList ++ what ++ ": ".toList ++ err

end Wizard

open Wizard

/-- What stays as it is while a wizard runs: the cores, where they are known, and the directory for temporary files. -/
structure Machine where
  cores : Option ℕ+
  tempDir : Text

def Machine.defaultConcurrency (machine : Machine) : Nat := machine.cores.getD 4

/-! ## One input -/

structure WizardInput (α : Type) where
  flagValue : Option (Except Text α)
  prompt : Wizard α
  nonInteractiveFallback : Except Text α

def WizardInput.resolve {α : Type} (input : WizardInput α) (nonInteractive : Bool) : Wizard α :=
  match input.flagValue with
  | some result => orFail id result
  | none =>
    if nonInteractive then orFail id input.nonInteractiveFallback
    else do
      let terminal : Bool ← ask .isTerminal
      if terminal then input.prompt else orFail id input.nonInteractiveFallback

def required {α : Type} (flag : Text) : Except Text α :=
  .error (flag ++ " is required when not running interactively".toList)

def bucketLabel (bucketConfig : BucketConfig) : Text :=
  bucketConfig.aliasName ++ " (".toList ++ bucketConfig.endpoint ++ ", ".toList ++ bucketConfig.bucket ++ ")".toList

/-- The only bucket-config there is needs no question. -/
def promptSelectBucket (store : Store) : Wizard BucketConfig :=
  match store.bucketConfigs with
  | [] => throw (.failed "no bucket-configs configured; run 'pigeon keyring add bucket' first".toList)
  | [only] => pure only
  | first :: second :: rest => do
    let selection : Fin ((first :: second :: rest).map bucketLabel).length ← orFail (unread "bucket-config selection".toList)
      (← ask (.select "Select a bucket-config".toList ((first :: second :: rest).map bucketLabel) 0))
    return (first :: second :: rest).get (selection.cast (List.length_map bucketLabel))

def debugLogBucketInput (flag : Option Text) (store : Store) : WizardInput Text where
  flagValue := flag.map .ok
  prompt := do return (← promptSelectBucket store).aliasName
  nonInteractiveFallback := required "--debug-log-bucket".toList

/-- A positive number with a default. -/
def numberInput (flag : Option Nat) (prompt what : Text) (default : Nat) : WizardInput Nat where
  flagValue := flag.map fun value => .ok (max value 1)
  prompt := do
    let value ← orFail (unread what) (← ask (.interactNumber prompt default))
    return max value 1
  nonInteractiveFallback := .ok default

def transfersDefault : Nat := 8

def checkersDefault : Nat := 16

def transfersInput (flag : Option Nat) : WizardInput Nat :=
  numberInput flag "rclone --transfers".toList "transfers".toList transfersDefault

def checkersInput (flag : Option Nat) : WizardInput Nat :=
  numberInput flag "rclone --checkers".toList "checkers".toList checkersDefault

/-- An empty answer is no cap. -/
def tpslimitInput (flag : Option Nat) : WizardInput (Option Nat) where
  flagValue := flag.map fun value => .ok (some value)
  prompt := do
    let value ← orFail (unread "tpslimit".toList) (← ask (.interactText "rclone --tpslimit (blank = no cap)".toList none))
    let trimmed := Text.trim value
    if trimmed = [] then return none
    match Text.parseUsize trimmed with
    | some value => return some value
    | none => throw (.failed ("'".toList ++ trimmed ++ "' is not a valid tpslimit".toList))
  nonInteractiveFallback := .ok none

def concurrencyClampMultiplier : Nat := 2

def cpuConcurrencyInput (machine : Machine) (flag : Option Nat) : WizardInput Nat where
  flagValue := flag.map fun value =>
    .ok (min (max value 1) (machine.defaultConcurrency * concurrencyClampMultiplier))
  prompt := do
    let value ← orFail (unread "concurrency".toList) (← ask (.interactNumber "Concurrency".toList machine.defaultConcurrency))
    return max value 1
  nonInteractiveFallback := required "--concurrency".toList

def proceed : Action := .interactConfirm "Proceed?".toList true

def confirmInput (nonInteractive : Bool) : WizardInput Bool where
  flagValue := if nonInteractive then some (.ok true) else none
  prompt := do orFail (unread "confirmation".toList) (← ask proceed)
  nonInteractiveFallback :=
    .error "confirmation is required when not running interactively (pass --non-interactive to skip)".toList

/-- `default_local_output` -/
def Machine.defaultLocalOutput (machine : Machine) : Text := Text.joinPath machine.tempDir "pigeon-job".toList

def localOutputInput (machine : Machine) (flag : Option Text) (prompt : Text) : WizardInput Text where
  flagValue := flag.map .ok
  prompt := do
    orFail (unread "local output directory".toList) (← ask (.interactText prompt (some machine.defaultLocalOutput)))
  nonInteractiveFallback := .ok machine.defaultLocalOutput

/-- The whole bucket where no prefix is given and no default is known. -/
def bucketInput (flag : Option Text) (store : Store) (name : Text) (defaultPrefix : Option Text) : WizardInput RemoteTarget where
  flagValue := flag.map fun value => (parsed value).mapError String.toList
  prompt := do
    let bucketConfig ← promptSelectBucket store
    orFail String.toList (completed (RemoteTarget.bucketRoot bucketConfig.aliasName))
  nonInteractiveFallback := required name
where
  completed (target : RemoteTarget) : Except String RemoteTarget :=
    match defaultPrefix with
    | some defaultPrefix => target.withDefaultPrefix defaultPrefix
    | none => .ok target
  parsed (value : Text) : Except String RemoteTarget := do completed (← RemoteTarget.parse value store)

/-! ## The inputs of a conversion -/

def interactiveInputFileTypes : List Text :=
  ["png", "jpeg", "heic", "mov", "m4v", "mp4", "mp4-audio", "m4a", "mp3", "aac", "wav", "opus", "numbers", "xlsx", "xls", "csv",
    "doc", "docx", "pages", "rtf", "pdf", "epub", "pptx", "key", "txt", "md", "markdown", "mkd", "rst", "textclipping", "tsv",
    "avif", "tif", "tiff", "webp", "bmp", "ico", "icns", "procreate", "procreate-2", "ai", "emz", "eps", "svg", "ics",
    "vcf"].map String.toList

/-- One of the options, which is parsed like the flag. -/
def optionInput {α : Type} (flag : Option Text) (parse : Text → Except Text α) (prompt what : Text) (options : List Text) (default : Nat)
    (nonInteractiveFallback : Except Text α) : WizardInput α where
  flagValue := flag.map parse
  prompt := do
    let selected : Fin options.length ← orFail (unread what) (← ask (.select prompt options default))
    orFail id (parse (options.get selected))
  nonInteractiveFallback := nonInteractiveFallback

def inputFileTypeInput (flag : Option Text) : WizardInput InputFileType :=
  optionInput flag InputFileType.parse "Input file type".toList "input file type".toList interactiveInputFileTypes 0
    (required "--input-file-type".toList)

def videoQualityInput (flag : Option Text) : WizardInput VideoQuality :=
  optionInput flag VideoQuality.parse "Video quality".toList "video quality".toList
    (["low", "medium", "high", "lossless"].map String.toList) 1 (.ok .medium)

def audioQualityInput (flag : Option Text) (kind : InputFileType) : WizardInput AudioQuality :=
  let options := ["low", "medium", "high", "transparent"].map String.toList
  optionInput flag AudioQuality.parse "Audio quality".toList "audio quality".toList options
    ((options.findIdx? (· == kind.defaultAudioQuality.asStr)).getD 1) (.ok kind.defaultAudioQuality)

def downloadTransfersDefault : Nat := 8

def downloadTransfersInput (flag : Option Nat) : WizardInput Nat :=
  numberInput flag "rclone --downloads-transfers (pull phase)".toList "download transfers".toList downloadTransfersDefault

def downloadCheckersDefault : Nat := 16

def downloadCheckersInput (flag : Option Nat) : WizardInput Nat :=
  numberInput flag "rclone --download-checkers (pull phase)".toList "download checkers".toList downloadCheckersDefault

def uploadTransfersDefault : Nat := 8

def uploadTransfersInput (flag : Option Nat) : WizardInput Nat :=
  numberInput flag "concurrent push operations (upload phase)".toList "upload transfers".toList uploadTransfersDefault

def maxPendingDownloadsInput (flag : Option Nat) (concurrency : Nat) : WizardInput Nat :=
  numberInput flag "max pending downloads before pause (blank = auto)".toList "max pending downloads".toList (concurrency * 4)

end Pigeon.Dispatch
