import Pigeon.Library.Template
import Pigeon.Transform.Process

/-! # What a failed conversion says

The texts of the errors of all converters, as the parts they are put together from. A part is fixed, or it is a path that
depends on the input. What a tool writes is such a text too: it can mention the same paths.
-/
namespace Pigeon.Transform

open Library

set_option autoImplicit false

/-- What all conversions of one run share. -/
structure Run where
  sourceDir : Text
  scratchDir : Text
  sourcePath : Text
  kind : InputFileType
  digest : Text → Digest

def isComponent (component : Text) : Bool :=
  !component.isEmpty && component != ['.'] && component != ['.', '.'] && !component.contains '\x00'

/-- The key of an input: its path below the source directory. -/
structure SourceKey where
  text : Text
  valid : (text.splitOn '/').all isComponent = true

inductive Part where
  | text (s : Text)
  | input
  /-- `{scratch}/{single_name}.scratch` -/
  | output
  /-- `{scratch}/{name}` -/
  | scratchFile (name : Text)
  /-- What `soffice` or Ghostscript makes of the input: `{scratch}/{stem}.{ext}` -/
  | produced (ext : Text)
  /-- `{scratch}:` -/
  | scratchColon
deriving DecidableEq, Repr

abbrev Report := List Part

namespace Run

variable (run : Run) (key : SourceKey)

def group : Text := (groupKey run.digest run.sourcePath key.text run.kind).text

def singleName : Text := computeDestinationName run.digest run.sourcePath key.text run.kind

def stem : Text := ((Text.fileName key.text).map fun name => (Text.stemExtension name).1).getD []

/-- `ScratchDir` of the input's group -/
def scratch : Text := run.scratchDir ++ '/' :: run.group key

end Run

def Part.write (run : Run) (key : SourceKey) : Part → Text
  | .text s => s
  | .input => Text.joinPath run.sourceDir key.text
  | .output => run.scratch key ++ '/' :: (run.singleName key ++ ".scratch".toList)
  | .scratchFile name => run.scratch key ++ '/' :: name
  | .produced ext => run.scratch key ++ '/' :: (Run.stem key ++ '.' :: ext)
  | .scratchColon => run.scratch key ++ [':']

/-! ## The signatures a message is put together with -/

def noVideoStreamSignature : Text := "has no video stream".toList

def unexpectedVideoStreamSignature : Text := "is not an audio-only recording".toList

def notAWorkbookSignature : Text := "is not a readable spreadsheet".toList

def notADocumentSignature : Text := "is not a readable document".toList

def notAKeynoteSignature : Text := "is not a Keynote presentation".toList

def notATextclippingSignature : Text := "is not a readable text clipping".toList

def notAnIcnsSignature : Text := "is not a readable icns icon".toList

def notAProcreateSignature : Text := "is not a readable Procreate document".toList

def procreateUnverifiedSignature : Text := "does not match its own thumbnail".toList

def converterCrashedSignature : Text := "converter crashed".toList

def notACalendarSignature : Text := "is not an iCalendar file".toList

def notAVcardSignature : Text := "is not a vCard file".toList

def svgDrewNothingSignature : Text := "converted to an SVG that draws nothing".toList

/-! ## The failures of the converters -/

inductive Failure where
  | copy (err : Report)
  /-- A tool that could not be started. -/
  | spawn (tool : Text) (err : Report)
  /-- A blocking task that did not come back. -/
  | task (name : Text) (err : Report)
  /-- `action` is what was tried with the file. -/
  | io (action : Text) (file : Part) (err : Report)
  | scratchIo (action : Text) (err : Report)
  | transcode (file : Part) (stderr : Report)
  | pixelArea (file : Part) (before after : Nat × Nat) (diagnostics : Report)
  /-- The durations, with three decimals. -/
  | shortened (before after : Text)
  | noVideoStream
  | unexpectedVideoStream
  | sofficeTimedOut (file : Part) (signature : Text)
  | noStem (file : Part)
  | sofficeCrashed (file : Part) (signal : Option Nat) (stderr : Report)
  | sofficeNoOutput (targetExt : Text) (file : Part) (exit : Option Nat) (signature : Text) (stdout stderr : Report)
  | workbookLimit (file : Part) (size : Nat)
  | textLimit (size : Nat)
  | calendarLimit (size : Nat)
  /-- A reader that refused the file, and why. -/
  | refused (file : Part) (signature : Text) (detail : Report)
  | sheetUnread (name : Text) (file : Part) (err : Report)
  | sheetLimit (name : Text) (file : Part) (rows columns : Nat)
  | noSheets (file : Part)
  | sheetRows (name : Text) (file : Part) (expectedRows writtenRows index : Nat)
  | sheetEmpty (name : Text) (file : Part) (index : Nat)
  | sheetCount (file : Part) (outputs total : Nat)
  | notKeynote
  | gsTimedOut
  | gsFailed (exit : Option Nat) (stdout stderr : Report)
  | svgDrewNothing
  | ebookConvertFailed (exit : Option Nat) (stdout stderr : Report)
  | pandocFailed (exit : Option Nat) (stderr : Report)
  | pandocNoOutput
  | icns (detail : Report)
  | procreateUnreadable (detail : Report)
  | thumbnailUndecoded (err : Report)
  | thumbnailShape (width height thumbnailWidth thumbnailHeight : Nat)
  /-- The difference, with one decimal. -/
  | thumbnailDiffers (difference : Text)
  | encodePng (err : Report)
  | notACalendar
  | notAVcard

def shown (n : Nat) : Part := .text (Nat.toDigits 10 n)

def lit (s : String) : Part := .text s.toList

/-- `{:?}` of an exit code -/
def shownExit : Option Nat → Report
  | some code => [lit "Some(", shown code, lit ")"]
  | none => [lit "None"]

def shownSize (size : Nat × Nat) : Report := [lit "(", shown size.1, lit ", ", shown size.2, lit ")"]

def terminationSignal : Option Nat → Report
  | some signal => [lit "signal ", shown signal]
  | none => [lit "no exit code"]

/-- `sheet-{index:02}.csv` in the scratch directory -/
def sheetFile (index : Nat) : Part := .scratchFile ("sheet-".toList ++ Text.showPadded 2 index ++ ".csv".toList)

def maxWorkbookBytes : Nat := 512 * 1024 * 1024

def maxSheetCells : Nat := 50000000

def maxTextBytes : Nat := 512 * 1024 * 1024

def maxInputBytes : Nat := 64 * 1024 * 1024

def sofficeTimeoutSecs : Nat := 300

def ghostscriptTimeoutSecs : Nat := 120

def Failure.parts : Failure → Report
  | .copy err => [lit "failed to copy ", .input, lit " to ", .output, lit ": "] ++ err
  | .spawn tool err => [lit "failed to run ", .text tool, lit ": "] ++ err
  | .task name err => [.text name, lit " task failed: "] ++ err
  | .io action file err => [lit "failed to ", .text action, lit " ", file, lit ": "] ++ err
  | .scratchIo action err => [lit "failed to ", .text action, lit " ", .scratchColon, lit " "] ++ err
  | .transcode file stderr => [lit "ffmpeg failed to transcode ", file, lit ": "] ++ stderr
  | .pixelArea file before after diagnostics =>
    [lit "transcoding ", file, lit " changed pixel area from "] ++ shownSize before ++
      [lit " (", shown (before.1 * before.2), lit " px) to "] ++ shownSize after ++
      [lit " (", shown (after.1 * after.2), lit " px); refusing an output that isn't full-size"] ++ diagnostics
  | .shortened before after =>
    [lit "transcoding ", .input, lit " shortened duration from ", .text before, lit "s to ", .text after,
      lit "s (allowance 0.5s or 2% of the input, whichever is larger); refusing a truncated or partial encode"]
  | .noVideoStream =>
    [.input, lit " ", .text noVideoStreamSignature,
      lit " (likely an audio-only recording saved with a video extension); ",
      lit "see CLI-0142 for an audio-preserving input type"]
  | .unexpectedVideoStream =>
    [.input, lit " has a video stream, so it ", .text unexpectedVideoStreamSignature,
      lit "; refusing to discard video (use --input-file-type mp4 to transcode it as video)"]
  | .sofficeTimedOut file signature =>
    [lit "soffice timed out after ", shown sofficeTimeoutSecs, lit "s converting ", file, lit " -- ", .text signature,
      lit " this run can process"]
  | .noStem file => [file, lit " has no usable file stem"]
  | .sofficeCrashed file signal stderr =>
    [lit "soffice crashed ("] ++ terminationSignal signal ++
      [lit ") converting ", file, lit " -- ", .text converterCrashedSignature, lit ". stderr: "] ++ stderr
  | .sofficeNoOutput targetExt file exit signature stdout stderr =>
    [lit "soffice produced no usable .", .text targetExt, lit " for ", file, lit " (exit "] ++ shownExit exit ++
      [lit ") -- ", .text signature, lit ". stdout: "] ++ stdout ++ [lit " stderr: "] ++ stderr
  | .workbookLimit file size =>
    [file, lit " is ", shown size, lit " bytes, over this job's ", shown maxWorkbookBytes,
      lit "-byte workbook limit -- reading it would have to hold a whole sheet in memory at once"]
  | .textLimit size =>
    [.input, lit " is ", shown size, lit " bytes, over this job's ", shown maxTextBytes, lit "-byte text limit"]
  | .calendarLimit size =>
    [.input, lit " is ", shown size, lit " bytes, over this job's ", shown maxInputBytes,
      lit "-byte calendar/contact limit"]
  | .refused file signature detail => [file, lit " ", .text signature, lit ": "] ++ detail
  | .sheetUnread name file err => [lit "failed to read sheet '", .text name, lit "' of ", file, lit ": "] ++ err
  | .sheetLimit name file rows columns =>
    [lit "sheet '", .text name, lit "' of ", file, lit " declares ", shown rows, lit "x", shown columns, lit " = ",
      shown (rows * columns), lit " cells, over this job's ", shown maxSheetCells, lit "-cell limit"]
  | .noSheets file =>
    [file, lit " has no non-empty sheets -- ", .text notAWorkbookSignature, lit " with any data to extract"]
  | .sheetRows name file expectedRows writtenRows index =>
    [lit "sheet '", .text name, lit "' of ", file, lit " has ", shown expectedRows, lit " row(s) but ", shown writtenRows,
      lit " were written to ", sheetFile index]
  | .sheetEmpty name file index =>
    [lit "sheet '", .text name, lit "' of ", file, lit " produced an empty ", sheetFile index]
  | .sheetCount file outputs total =>
    [file, lit " produced ", shown outputs, lit " CSV(s) for ", shown total, lit " non-empty sheet(s)"]
  | .notKeynote =>
    [.input, lit " ", .text notAKeynoteSignature,
      lit " -- a Keynote document is a zip container, and this file does not begin with one. ",
      lit "A '.key' file is often a private key rather than a presentation; it has not been converted, ",
      lit "and its local copy is removed"]
  | .gsTimedOut =>
    [lit "gs timed out after ", shown ghostscriptTimeoutSecs, lit "s interpreting ", .input, lit " -- ",
      .text notADocumentSignature, lit " this run can process"]
  | .gsFailed exit stdout stderr =>
    [lit "gs could not interpret ", .input, lit " as PostScript (exit "] ++ shownExit exit ++
      [lit ") -- ", .text notADocumentSignature, lit ". stdout: "] ++ stdout ++ [lit " stderr: "] ++ stderr
  | .svgDrewNothing =>
    [.input, lit " ", .text svgDrewNothingSignature, lit " -- no drawing element outside its definitions"]
  | .ebookConvertFailed exit stdout stderr =>
    [lit "ebook-convert produced no usable .pdf for ", .input, lit " (exit "] ++ shownExit exit ++
      [lit ") -- ", .text notADocumentSignature, lit ". stdout: "] ++ stdout ++ [lit " stderr: "] ++ stderr
  | .pandocFailed exit stderr =>
    [lit "pandoc failed to render ", .input, lit " (exit "] ++ shownExit exit ++
      [lit ") -- ", .text notADocumentSignature, lit ". stderr: "] ++ stderr
  | .pandocNoOutput =>
    [lit "pandoc reported success but wrote no ", .output, lit " for ", .input, lit " -- ", .text notADocumentSignature]
  | .icns detail => [.input, lit " "] ++ detail ++ [lit " -- ", .text notAnIcnsSignature]
  | .procreateUnreadable detail => detail ++ [lit " -- ", .text notAProcreateSignature]
  | .thumbnailUndecoded err =>
    [.input, lit ": its thumbnail could not be decoded ("] ++ err ++
      [lit "), so the export cannot be verified -- ", .text procreateUnverifiedSignature]
  | .thumbnailShape width height thumbnailWidth thumbnailHeight =>
    [.input, lit ": export is ", shown width, lit "x", shown height, lit " but the thumbnail is ", shown thumbnailWidth,
      lit "x", shown thumbnailHeight, lit ", a different shape -- ", .text procreateUnverifiedSignature]
  | .thumbnailDiffers difference =>
    [.input, lit ": export differs from the thumbnail by ", .text difference, lit " (limit 6) -- ",
      .text procreateUnverifiedSignature]
  | .encodePng err => lit "failed to encode PNG: " :: err
  | .notACalendar => [.input, lit " ", .text notACalendarSignature, lit " -- it has no BEGIN:VCALENDAR line"]
  | .notAVcard => [.input, lit " ", .text notAVcardSignature, lit " -- it has no BEGIN:VCARD line"]

def Failure.message (run : Run) (key : SourceKey) (failure : Failure) : Text :=
  failure.parts.flatMap (Part.write run key)

end Pigeon.Transform
