import Pigeon.Library.Utf8

/-! # Tailing the log of rclone

`RcloneLogTailer` reads what the JSON log has grown by, carries the line that is still open to the next poll
and reports what is new. Reading a line as JSON is left to the parser that is passed in.
-/
namespace Pigeon.Rclone

open Library

set_option autoImplicit false

structure RcloneStats where
  bytes : Nat
  transfers : Nat
  errors : Nat
  deletes : Nat
deriving DecidableEq, Repr

structure RcloneLogLine where
  level : Text
  msg : Text
  object : Option Text
  stats : Option RcloneStats
deriving DecidableEq, Repr

structure RcloneLogSummary where
  transferred : Nat := 0
  errors : Nat := 0
  bytes : Nat := 0
  deletes : Nat := 0
  duplicateNotices : Nat := 0
deriving DecidableEq, Repr

structure ErrorStreak where
  cause : Text
  firstKey : Option Text
  count : Nat
  count_pos : 0 < count

structure CollapsedErrorSummary where
  cause : Text
  firstKey : Option Text
  repeated : Nat
deriving DecidableEq, Repr

structure TailDelta where
  transferred : Nat := 0
  errors : Nat := 0
  bytes : Nat := 0
  deletes : Nat := 0
  collapsedRepeats : List CollapsedErrorSummary := []
  copiedObjects : List Text := []
deriving DecidableEq, Repr

/-- An error line as it is passed on to the log of the program. -/
structure LiveWarning where
  key : Option Text
  error : Text
  message : Text
deriving DecidableEq, Repr

/-- `str::eq_ignore_ascii_case` -/
def eqIgnoreAsciiCase (s t : Text) : Bool := s.map Char.toLower == t.map Char.toLower

structure RcloneLogTailer where
  offset : Nat := 0
  partialLine : Text := []
  cumulative : RcloneLogSummary := {}
  currentStreak : Option ErrorStreak := none
  step : Text
  pendingCopied : List Text := []
  logged : List LiveWarning := []

namespace RcloneLogTailer

def new (step : Text) : RcloneLogTailer := { step }

def flushErrorStreak (t : RcloneLogTailer) : RcloneLogTailer × Option CollapsedErrorSummary :=
  match t.currentStreak with
  | none => (t, none)
  | some streak =>
    ({ t with currentStreak := none },
      if streak.count ≤ 1 then none else some ⟨streak.cause, streak.firstKey, streak.count - 1⟩)

def warning (t : RcloneLogTailer) (key : Option Text) (cause : Text) : LiveWarning where
  key := key
  error := cause
  message :=
    if key.isNone then "rclone reported an error".toList
    else if t.step = "delete".toList then "rclone object deletion failed".toList
    else "rclone object transfer failed".toList

def recordError (t : RcloneLogTailer) (key : Option Text) (cause : Text) :
    RcloneLogTailer × Option CollapsedErrorSummary :=
  match t.currentStreak with
  | some streak =>
    if streak.cause = cause then
      ({ t with currentStreak := some { streak with count := streak.count + 1, count_pos := Nat.succ_pos _ } }, none)
    else
      let (s, flushed) := t.flushErrorStreak
      ({ s with
        currentStreak := some ⟨cause, key, 1, Nat.one_pos⟩
        logged := s.logged ++ [t.warning key cause] }, flushed)
  | none =>
    ({ t with
      currentStreak := some ⟨cause, key, 1, Nat.one_pos⟩
      logged := t.logged ++ [t.warning key cause] }, none)

def countLine (cumulative : RcloneLogSummary) (parsed : RcloneLogLine) : RcloneLogSummary :=
  let counted :=
    match parsed.stats with
    | some stats =>
      { cumulative with
        transferred := stats.transfers, errors := stats.errors, bytes := stats.bytes, deletes := stats.deletes }
    | none => cumulative
  if eqIgnoreAsciiCase parsed.level "notice".toList && decide ("Duplicate object found in source".toList <:+: parsed.msg)
  then { counted with duplicateNotices := counted.duplicateNotices + 1 }
  else counted

def copiedObject (parsed : RcloneLogLine) : Option Text :=
  if eqIgnoreAsciiCase parsed.level "info".toList && "Copied ".toList.isPrefixOf parsed.msg then parsed.object else none

def processLine (parse : Text → Option RcloneLogLine) (t : RcloneLogTailer) (line : Text) :
    RcloneLogTailer × Option CollapsedErrorSummary :=
  if line = [] then (t, none)
  else
    match parse line with
    | none => (t, none)
    | some parsed =>
      let s :=
        { t with
          cumulative := countLine t.cumulative parsed
          pendingCopied := t.pendingCopied ++ (copiedObject parsed).toList }
      if eqIgnoreAsciiCase parsed.level "error".toList then s.recordError parsed.object parsed.msg else (s, none)

def processLines (parse : Text → Option RcloneLogLine) (t : RcloneLogTailer) (lines : List Text) :
    RcloneLogTailer × List CollapsedErrorSummary :=
  lines.foldl (fun before line =>
    let (s, flushed) := before.1.processLine parse (Text.trim line)
    (s, before.2 ++ flushed.toList)) (t, [])

def flushOnlyDelta (t : RcloneLogTailer) : RcloneLogTailer × TailDelta :=
  let (s, flushed) := { t with pendingCopied := [] }.flushErrorStreak
  (s, { collapsedRepeats := flushed.toList, copiedObjects := t.pendingCopied })

/-- One poll, with the bytes of the log file, or none where it cannot be opened or read. -/
def poll (parse : Text → Option RcloneLogLine) (t : RcloneLogTailer) (file : Option (List UInt8)) :
    RcloneLogTailer × TailDelta :=
  match file.bind fun bytes => Utf8.decode (bytes.drop t.offset) with
  | none => t.flushOnlyDelta
  | some buf =>
    if buf = [] then t.flushOnlyDelta
    else
      let chunk := t.partialLine ++ buf
      let pieces := chunk.splitOn '\n'
      let partialLine := if chunk.getLast? = some '\n' then [] else pieces.getLastD []
      let (s, collapsed) := { t with partialLine }.processLines parse pieces.dropLast
      let (s, flushed) := { s with offset := s.offset + Text.byteLength buf }.flushErrorStreak
      ({ s with pendingCopied := [] },
        { transferred := s.cumulative.transferred - t.cumulative.transferred
          errors := s.cumulative.errors - t.cumulative.errors
          bytes := s.cumulative.bytes - t.cumulative.bytes
          deletes := s.cumulative.deletes - t.cumulative.deletes
          collapsedRepeats := collapsed ++ flushed.toList
          copiedObjects := s.pendingCopied })

def summary (t : RcloneLogTailer) : RcloneLogSummary := t.cumulative

/-- Successive polls of a growing file: what the file grows by before each, and whether the poll can read it. -/
def pollAll (parse : Text → Option RcloneLogLine) (t : RcloneLogTailer) (file : List UInt8) :
    List (List UInt8 × Bool) → RcloneLogTailer × List TailDelta
  | [] => (t, [])
  | (growth, readable) :: later =>
    let grown := file ++ growth
    let (s, delta) := t.poll parse (if readable then some grown else none)
    let (last, deltas) := pollAll parse s grown later
    (last, delta :: deltas)

end RcloneLogTailer

end Pigeon.Rclone
