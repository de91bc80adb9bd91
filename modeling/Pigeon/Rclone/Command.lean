import Pigeon.Rclone.Log

/-! # The rclone commands

A command says what its subprocess is called with, what its counters are named and what an outcome comes to.
The four commands that are run differ in no other way. Durations are in seconds.
-/
namespace Pigeon.Rclone

open Library

set_option autoImplicit false

/-- A counter, with the labels that tell it from the others of a program. -/
inductive Series where
  | phase (job phase outcome : Text)
  | uploadBytes (job : Text)
  | uploadOutcomes (job outcome : Text)
deriving DecidableEq, Repr

abbrev Increment := Series × Nat

/-- What a counter has come to. -/
def Series.total (series : Series) (increments : List Increment) : Nat :=
  ((increments.filter fun increment => increment.1 = series).map Prod.snd).sum

structure Labels where
  job : Text
  step : Text
  successOutcome : Text
  uploadMetrics : Bool
deriving DecidableEq, Repr

/-- Whether somebody listens for the objects that are copied. -/
structure StreamHooks where
  onCopied : Bool := false
deriving DecidableEq, Repr

inductive Observation where
  | streamed (hooks : StreamHooks)
  | oneShot
deriving DecidableEq, Repr

/-- The exit code, or none where a signal ended the subprocess. -/
abbrev ExitStatus := Option Int

def ExitStatus.success (status : ExitStatus) : Bool := status == some 0

structure Outcome where
  exitCode : Option Int
  success : Bool
  stdout : List UInt8
  stderr : Text
  log : RcloneLogSummary
deriving DecidableEq, Repr

structure RcloneCommand (Output : Type) where
  subcommand : Text
  args : List Text
  logPath : Option Text
  observe : Observation
  labels : Labels
  /-- The counters that the command increments itself, and its result. -/
  finish : Outcome → List Increment × Except Text Output
  retry : Option (Nat × Nat) := none
  configPath : Option Text := none

def displayExitCode : Option Int → Text
  | some code => (toString code).toList
  | none => "unknown (terminated by signal)".toList

/-- What an error says of what rclone wrote to its stderr. -/
def stderrNote (stderr : Text) : Text :=
  if Text.trim stderr = [] then [] else " -- rclone stderr: ".toList ++ Text.trim stderr

structure Copy where
  source : Text
  destination : Text
  logPath : Text
  transfers : Nat
  checkers : Nat
  tpslimit : Option Nat := none
  filesFrom : Option Text := none
  job : Text
  step : Text
  uploadMetrics : Bool := false
  hooks : StreamHooks := {}

namespace Copy

def args (copy : Copy) : List Text :=
  [copy.source, copy.destination, "--transfers".toList, Nat.toDigits 10 copy.transfers, "--checkers".toList,
      Nat.toDigits 10 copy.checkers] ++
    (copy.tpslimit.elim [] fun tpslimit => ["--tpslimit".toList, Nat.toDigits 10 tpslimit]) ++
    (copy.filesFrom.elim [] fun filesFrom => ["--files-from-raw".toList, filesFrom]) ++
    ["--fast-list".toList, "--buffer-size".toList, "32M".toList, "--multi-thread-streams".toList, "4".toList,
      "--multi-thread-cutoff".toList, "256M".toList]

def finish (copy : Copy) (outcome : Outcome) : Except Text RcloneLogSummary :=
  if !outcome.success then
    .error ("rclone copy exited with status ".toList ++ displayExitCode outcome.exitCode ++ " (".toList ++
      Nat.toDigits 10 outcome.log.transferred ++ " file(s) transferred, ".toList ++ Nat.toDigits 10 outcome.log.errors ++
      " error(s)); see ".toList ++ copy.logPath ++ " for details".toList ++ stderrNote outcome.stderr)
  else .ok outcome.log

def command (copy : Copy) : RcloneCommand RcloneLogSummary where
  subcommand := "copy".toList
  args := copy.args
  logPath := some copy.logPath
  observe := .streamed copy.hooks
  labels := ⟨copy.job, copy.step, "transferred".toList, copy.uploadMetrics⟩
  finish outcome := ([], copy.finish outcome)

end Copy

structure Purge where
  source : Text
  logPath : Text
  checkers : Nat
  job : Text
  step : Text

namespace Purge

def args (purge : Purge) : List Text :=
  [purge.source, "--checkers".toList, Nat.toDigits 10 purge.checkers, "--fast-list".toList]

def finish (purge : Purge) (outcome : Outcome) : Except Text RcloneLogSummary :=
  if !outcome.success then
    .error ("rclone purge exited with status ".toList ++ displayExitCode outcome.exitCode ++ " (".toList ++
      Nat.toDigits 10 outcome.log.deletes ++ " object(s) deleted, ".toList ++ Nat.toDigits 10 outcome.log.errors ++
      " error(s)); see ".toList ++ purge.logPath ++ " for details".toList ++ stderrNote outcome.stderr)
  else .ok outcome.log

def command (purge : Purge) : RcloneCommand RcloneLogSummary where
  subcommand := "purge".toList
  args := purge.args
  logPath := some purge.logPath
  observe := .streamed {}
  labels := ⟨purge.job, purge.step, "deleted".toList, false⟩
  finish outcome := ([], purge.finish outcome)

end Purge

structure LsjsonEntry where
  name : Text
  path : Text
  size : Nat
deriving DecidableEq, Repr

structure Lsjson where
  path : Text
  recursive : Bool := false
  includeExtensions : List Text := []
  missingOk : Bool := false
  configPath : Option Text := none
  job : Text

namespace Lsjson

def args (lsjson : Lsjson) : List Text :=
  ["--files-only".toList, "--no-modtime".toList, "--no-mimetype".toList] ++
    (if lsjson.recursive then ["--recursive".toList] else []) ++
    (if lsjson.includeExtensions.isEmpty then [] else
      (lsjson.includeExtensions.flatMap fun extension => ["--include".toList, "*.".toList ++ extension]) ++
        ["--ignore-case".toList]) ++
    [lsjson.path]

/-- Reading a listing as JSON is left to the parser that is passed in. -/
def finish (parseListing : List UInt8 → Except Text (List LsjsonEntry)) (lsjson : Lsjson) (outcome : Outcome) :
    Except Text (List LsjsonEntry) :=
  if !outcome.success then
    if lsjson.missingOk && decide ("directory not found".toList <:+: outcome.stderr.map Char.toLower) then .ok []
    else
      .error ("rclone lsjson ".toList ++ lsjson.path ++ " exited with status ".toList ++ displayExitCode outcome.exitCode ++
        ": ".toList ++ Text.trim outcome.stderr)
  else
    (parseListing outcome.stdout).mapError fun err =>
      "failed to parse rclone lsjson output for ".toList ++ lsjson.path ++ ": ".toList ++ err

def command (parseListing : List UInt8 → Except Text (List LsjsonEntry)) (lsjson : Lsjson) :
    RcloneCommand (List LsjsonEntry) where
  subcommand := "lsjson".toList
  args := lsjson.args
  logPath := none
  observe := .oneShot
  labels := ⟨lsjson.job, "list".toList, "listed".toList, false⟩
  finish outcome := ([], lsjson.finish parseListing outcome)
  retry := some (3, 2)
  configPath := lsjson.configPath

end Lsjson

structure CopyTo where
  source : Text
  destination : Text
  logPath : Text
  job : Text
  step : Text
  emitUploadMetrics : Bool := false
  bytes : Nat := 0

namespace CopyTo

def finish (copyTo : CopyTo) (outcome : Outcome) : List Increment × Except Text Unit :=
  (if copyTo.emitUploadMetrics then
      (if outcome.success then [(.uploadBytes copyTo.job, copyTo.bytes)] else []) ++
        [(.uploadOutcomes copyTo.job (if outcome.success then "uploaded".toList else "failed".toList), 1)]
    else [],
    if !outcome.success then
      .error ("rclone copyto ".toList ++ copyTo.source ++ " -> ".toList ++ copyTo.destination ++ " exited with status ".toList ++
        displayExitCode outcome.exitCode ++ "; see ".toList ++ copyTo.logPath ++ " for details".toList ++
        stderrNote outcome.stderr)
    else .ok ())

def command (copyTo : CopyTo) : RcloneCommand Unit where
  subcommand := "copyto".toList
  args := [copyTo.source, copyTo.destination]
  logPath := some copyTo.logPath
  observe := .oneShot
  labels := ⟨copyTo.job, copyTo.step, "transferred".toList, false⟩
  finish := copyTo.finish
  retry := some (4, 30)

end CopyTo

end Pigeon.Rclone
