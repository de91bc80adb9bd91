import Pigeon.Library.Failing
import Pigeon.Transform.Failure
import Pigeon.Transform.Intake
import Pigeon.Transform.Svg
import Mathlib.Data.Rat.Defs

/-! # The converters

A conversion calls tools and looks at files. What they answer is not known beforehand, and can be anything; a converter is the
talk it has with them, and it ends with the outputs or a failure.
-/
namespace Pigeon.Transform

open Library

set_option autoImplicit false

inductive VideoQuality where
  | low
  | medium
  | high
  | lossless
deriving DecidableEq, Repr

def VideoQuality.crf : VideoQuality → Option Nat
  | .low => some 30
  | .medium => some 24
  | .high => some 20
  | .lossless => none

inductive AudioQuality where
  | low
  | medium
  | high
  | transparent
deriving DecidableEq, Repr

def AudioQuality.bitrate : AudioQuality → Text
  | .low => "32k".toList
  | .medium => "48k".toList
  | .high => "96k".toList
  | .transparent => "128k".toList

namespace InputFileType

def isVideo : InputFileType → Bool
  | .mov | .m4v | .mp4 => true
  | _ => false

def isAudio : InputFileType → Bool
  | .mp4Audio | .m4a | .mp3 | .aac | .wav | .opus => true
  | _ => false

end InputFileType

/-! ## What a converter does -/

inductive Tool where
  | ffmpeg
  | soffice
  | gs
  | ebookConvert
  | pandoc
deriving DecidableEq, Repr

def Tool.name : Tool → Text
  | .ffmpeg => "ffmpeg".toList
  | .soffice => "soffice".toList
  | .gs => "gs".toList
  | .ebookConvert => "ebook-convert".toList
  | .pandoc => "pandoc".toList

/-- A tool that came to its end; a signal leaves no exit code. -/
structure Finished where
  exit : Option Nat
  signal : Option Nat
  stdout : Report
  stderr : Report

def Finished.success (finished : Finished) : Bool := finished.exit == some 0

/-- A duration, and how it is printed with three decimals. -/
structure Duration where
  seconds : ℚ
  shown : Text

/-- The size of the used range of a sheet. -/
structure SheetRange where
  rows : Nat
  columns : Nat
  isEmpty : Bool

/-- The conversions that need no tool. -/
inductive Task where
  | exportPng
  | icsToText
  | vcfToText
  | clippingToText
  | tsvToCsv
deriving DecidableEq, Repr

inductive Action where
  | copy
  | createDir
  | run (tool : Tool) (args : List Part)
  | runWithin (secs : Nat) (tool : Tool) (args : List Part)
  | stat (file : Part)
  | readHeader
  | readText (file : Part)
  | hasVideoStream
  | probeDimensions (file : Part)
  | probeDuration (file : Part)
  | probeVideoDiagnostics
  | extractLargest
  | inProcess (task : Task)
  | openWorkbook (file : Part)
  | worksheetRange (file : Part) (name : Text)
  | writeRangeCsv (index : Nat)
  | sleep (secs : Nat)

/-- What an action comes to; an error with what was tried, where that differs. -/
abbrev Action.Reply : Action → Type
  | .copy => Except Report Unit
  | .createDir => Except Report Unit
  | .run _ _ => Except Report Finished
  | .runWithin _ _ _ => Except Report (Option Finished)
  | .stat _ => Except Report Nat
  | .readHeader => Except (Text × Report) (List UInt8)
  | .readText _ => Except Report Text
  | .hasVideoStream => Bool
  | .probeDimensions _ => Option (Nat × Nat)
  | .probeDuration _ => Option Duration
  | .probeVideoDiagnostics => Report
  | .extractLargest => Except Failure Text
  | .inProcess _ => Except Failure Unit
  | .openWorkbook _ => Except Report (List Text)
  | .worksheetRange _ _ => Except Report SheetRange
  | .writeRangeCsv _ => Except Failure Nat
  | .sleep _ => Unit

abbrev Converter := Failing Action Action.Reply Failure

namespace Converter

abbrev ask (action : Action) : Converter action.Reply := Failing.ask action

abbrev orFail {ε α : Type} (failure : ε → Failure) (x : Except ε α) : Converter α := Failing.orFail failure x

/-- The size of a file that is there. -/
def size (file : Part) : Converter (Option Nat) := do
  let stat ← ask (.stat file)
  return stat.toOption

/-! ## Pictures, films and sounds -/

def copyThrough : Converter Part := do
  orFail .copy (← ask .copy)
  return .output

def ffmpeg (file : Part) (args : List Part) : Converter Unit := do
  let finished ← orFail (.spawn Tool.ffmpeg.name) (← ask (.run .ffmpeg args))
  if !finished.success then throw (.transcode file finished.stderr)

/-- The guard against an output that is not full-size; it is skipped where a size is not known. -/
def checkPixelArea (file : Part) (diagnostics : Converter Report) : Converter Unit := do
  let before ← ask (.probeDimensions file)
  let after ← ask (.probeDimensions .output)
  match before, after with
  | some before, some after =>
    if before.1 * before.2 ≠ after.1 * after.2 then throw (.pixelArea file before after (← diagnostics))
  | _, _ => return

def isTruncatedEncode (before after : ℚ) : Bool := decide (max (1 / 2) (|before| * (2 / 100)) < before - after)

def checkDuration : Converter Unit := do
  let before ← ask (.probeDuration .input)
  let after ← ask (.probeDuration .output)
  match before, after with
  | some before, some after =>
    if isTruncatedEncode before.seconds after.seconds then throw (.shortened before.shown after.shown)
  | _, _ => return

def transcodeStill (file : Part) (encodeArgs : List Text) : Converter Part := do
  ffmpeg file ([lit "-y", lit "-loglevel", lit "error", lit "-i", file, lit "-frames:v", lit "1"] ++ encodeArgs.map .text ++
    [.output])
  checkPixelArea file (pure [])
  return .output

def jpgArgs : List Text :=
  ["-q:v".toList, "1".toList, "-pix_fmt".toList, "yuvj444p".toList, "-f".toList, "mjpeg".toList]

def flattenOntoWhite : Text :=
  ("format=rgba,split[fg][bg0];[bg0]drawbox=t=fill:c=white@1," ++
    "format=rgb24[bg];[bg][fg]overlay=format=auto:shortest=1").toList

def transcodeToJpg (file : Part) : Converter Part := transcodeStill file jpgArgs

def transcodeToJpgFlattened (file : Part) : Converter Part :=
  transcodeStill file ("-filter_complex".toList :: flattenOntoWhite :: jpgArgs)

def transcodeToPng (file : Part) : Converter Part :=
  transcodeStill file ["-c:v".toList, "png".toList, "-f".toList, "image2".toList]

def transcodeVideo (quality : VideoQuality) (threads : Nat) : Converter Part := do
  let hasVideoStream : Bool ← ask .hasVideoStream
  if !hasVideoStream then throw .noVideoStream
  ffmpeg .input ([lit "-y", lit "-loglevel", lit "error", lit "-noautorotate", lit "-apply_cropping:v", lit "codec", lit "-i",
      .input, lit "-map", lit "0:v:0", lit "-map", lit "0:a:0?", lit "-c:v", lit "libx265", lit "-tag:v", lit "hvc1", lit "-preset",
      lit "medium", lit "-threads", shown (max threads 1)] ++
    (match quality.crf with
    | some crf => [lit "-crf", shown crf]
    | none => [lit "-x265-params", lit "lossless=1"]) ++
    [lit "-c:a", lit "aac", lit "-b:a", lit "256k", lit "-f", lit "mp4", .output])
  checkPixelArea .input (ask .probeVideoDiagnostics)
  checkDuration
  return .output

def transcodeAudio (quality : AudioQuality) : Converter Part := do
  let hasVideoStream : Bool ← ask .hasVideoStream
  if hasVideoStream then throw .unexpectedVideoStream
  ffmpeg .input [lit "-y", lit "-loglevel", lit "error", lit "-i", .input, lit "-map", lit "0:a:0", lit "-c:a", lit "libopus",
    lit "-b:a", .text quality.bitrate, lit "-application", lit "audio", lit "-f", lit "opus", .output]
  checkDuration
  return .output

/-! ## Documents -/

/-- `soffice::convert`, for the input or a file of the same stem. -/
def convert (key : SourceKey) (file : Part) (targetExt signature : Text) : Converter Part := do
  orFail (.scratchIo "create".toList) (← ask .createDir)
  let finished ← orFail (.spawn Tool.soffice.name) (← ask (.runWithin sofficeTimeoutSecs .soffice
    [lit "--headless", lit "-env:UserInstallation=", .scratchFile "lo-profile".toList, lit "--convert-to", .text targetExt,
      lit "--outdir", .scratchFile [], file]))
  match finished with
  | none => throw (.sofficeTimedOut file signature)
  | some finished =>
    if (Text.fileName key.text).isNone then throw (.noStem file)
    if ((← size (.produced targetExt)).getD 0) > 0 then return .produced targetExt
    if finished.exit = none then throw (.sofficeCrashed file finished.signal finished.stderr)
    throw (.sofficeNoOutput targetExt file finished.exit signature finished.stdout finished.stderr)

def zipMagic : List UInt8 := [0x50, 0x4b, 0x03, 0x04]

def ensureKeynote : Converter Unit := do
  let header ← orFail (fun err => .io err.1 .input err.2) (← ask .readHeader)
  if header ≠ zipMagic then throw .notKeynote

def toPdf (key : SourceKey) (kind : InputFileType) : Converter Part := do
  if kind = .key then ensureKeynote
  convert key .input "pdf".toList notADocumentSignature

def toSvg (key : SourceKey) : Converter Part := convert key .input "svg".toList notADocumentSignature

def epsToSvg (key : SourceKey) : Converter Part := do
  orFail (.scratchIo "create".toList) (← ask .createDir)
  if (Text.fileName key.text).isNone then throw (.noStem .input)
  let finished ← orFail (.spawn Tool.gs.name) (← ask (.runWithin ghostscriptTimeoutSecs .gs
    [lit "-dSAFER", lit "-dBATCH", lit "-dNOPAUSE", lit "-dQUIET", lit "-dEPSCrop", lit "-sDEVICE=pdfwrite", lit "-o",
      .produced "pdf".toList, lit "-f", .input]))
  match finished with
  | none => throw .gsTimedOut
  | some finished =>
    let pdfLen := (← size (.produced "pdf".toList)).getD 0
    if !finished.success || pdfLen == 0 then throw (.gsFailed finished.exit finished.stdout finished.stderr)
    let svg ← convert key (.produced "pdf".toList) "svg".toList notADocumentSignature
    let text ← orFail (.io "read".toList svg) (← ask (.readText svg))
    if !Svg.svgDrawsSomething text then throw .svgDrewNothing
    return svg

def epubToPdf (key : SourceKey) : Converter Part := do
  orFail (.scratchIo "create".toList) (← ask .createDir)
  if (Text.fileName key.text).isNone then throw (.noStem .input)
  let finished ← orFail (.spawn Tool.ebookConvert.name) (← ask (.run .ebookConvert [.input, .produced "pdf".toList]))
  if ((← size (.produced "pdf".toList)).getD 0) > 0 then return .produced "pdf".toList
  throw (.ebookConvertFailed finished.exit finished.stdout finished.stderr)

def markupToText (reader : Text) : Converter Part := do
  let finished ← orFail (.spawn Tool.pandoc.name)
    (← ask (.run .pandoc [lit "-f", .text reader, lit "-t", lit "plain", lit "-o", .output, .input]))
  if !finished.success then throw (.pandocFailed finished.exit finished.stderr)
  if (← size .output).isNone then throw .pandocNoOutput
  return .output

/-! ## Workbooks -/

structure SheetOutput where
  index : Nat
  total : Nat
  sheetName : Text
  path : Part
deriving DecidableEq, Repr

/-- The sheets that are not empty, in the order of the workbook. -/
def readSheets (file : Part) : List Text → Converter (List (Text × SheetRange))
  | [] => pure []
  | name :: names => do
    let range ← orFail (.sheetUnread name file) (← ask (.worksheetRange file name))
    if range.isEmpty then readSheets file names
    else
      if range.rows * range.columns > maxSheetCells then throw (.sheetLimit name file range.rows range.columns)
      return (name, range) :: (← readSheets file names)

def writeSheets (file : Part) (total : Nat) : Nat → List (Text × SheetRange) → Converter (List SheetOutput)
  | _, [] => pure []
  | position, (sheetName, range) :: ranges => do
    let index := position + 1
    let writtenRows ← orFail id (← ask (.writeRangeCsv index))
    if writtenRows ≠ range.rows then throw (.sheetRows sheetName file range.rows writtenRows index)
    if (← size (sheetFile index)).getD 0 = 0 then throw (.sheetEmpty sheetName file index)
    return ⟨index, total, sheetName, sheetFile index⟩ :: (← writeSheets file total (position + 1) ranges)

def splitWorkbook (file : Part) : Converter (List SheetOutput) := do
  let size ← orFail (.io "stat".toList file) (← ask (.stat file))
  if size > maxWorkbookBytes then throw (.workbookLimit file size)
  orFail (.scratchIo "create".toList) (← ask .createDir)
  let sheetNames ← orFail (.refused file notAWorkbookSignature) (← ask (.openWorkbook file))
  let ranges ← readSheets file sheetNames
  if ranges.isEmpty then throw (.noSheets file)
  let outputs ← writeSheets file ranges.length 0 ranges
  if outputs.length ≠ ranges.length then throw (.sheetCount file outputs.length ranges.length)
  return outputs

end Converter

/-! ## One input -/

/-- The options of a run that only some conversions look at. -/
structure Settings where
  videoQuality : VideoQuality
  audioQuality : AudioQuality
  transcodeThreads : Nat

structure PendingOutput where
  destinationName : Text
  scratchPath : Part
deriving DecidableEq, Repr

def transcodeRetries : Nat := 2

def transcodeRetryBackoff : Nat := 1

/-- The attempt with this number and the later ones, of which so many are left. -/
def retryFrom {α : Type} (fatal : Failure → Bool) (backoff : Nat) (f : Converter α) (attempt : Nat) : Nat → Converter α
  | 0 => do
    if attempt > 0 then Converter.ask (.sleep (backoff * attempt))
    f
  | remaining + 1 => do
    if attempt > 0 then Converter.ask (.sleep (backoff * attempt))
    try f
    catch failure => if fatal failure then throw failure else retryFrom fatal backoff f (attempt + 1) remaining

/-- The last error of the loop is the one that it returns. -/
def retryTranscodeUnlessFatal {α : Type} (attempts backoff : Nat) (fatal : Failure → Bool) (f : Converter α) : Converter α :=
  retryFrom fatal backoff f 0 (max attempts 1 - 1)

namespace Run

variable (run : Run) (key : SourceKey)

def isFatal (failure : Failure) : Bool := isNonRetryableTranscodeError (failure.message run key)

def transcoded (f : Converter Part) : Converter Part :=
  retryTranscodeUnlessFatal transcodeRetries transcodeRetryBackoff (run.isFatal key) f

def inProcess (task : Task) : Converter Part := do
  Converter.orFail id (← Converter.ask (.inProcess task))
  return .output

/-- The kinds with one output. -/
def produce (settings : Settings) (kind : InputFileType) : Converter Part :=
  match kind with
  | .jpeg | .pdf | .txt | .svg => Converter.copyThrough
  | .avif | .tif | .tiff | .webp | .bmp => run.transcoded key (Converter.transcodeToJpgFlattened .input)
  | .ico => run.transcoded key (Converter.transcodeToPng .input)
  | .icns => do
    let entry ← Converter.orFail id (← Converter.ask .extractLargest)
    run.transcoded key (Converter.transcodeToPng (.scratchFile entry))
  | .procreate | .procreate2 => inProcess .exportPng
  | .ai | .emz => Converter.toSvg key
  | .eps => Converter.epsToSvg key
  | .ics => inProcess .icsToText
  | .vcf => inProcess .vcfToText
  | .png | .heic => run.transcoded key (Converter.transcodeToJpg .input)
  | .mov | .m4v | .mp4 => run.transcoded key (Converter.transcodeVideo settings.videoQuality settings.transcodeThreads)
  | .mp4Audio | .m4a | .mp3 | .aac | .wav | .opus => run.transcoded key (Converter.transcodeAudio settings.audioQuality)
  | .doc | .docx | .pages | .rtf | .pptx | .key => Converter.toPdf key kind
  | .epub => Converter.epubToPdf key
  | .md => Converter.markupToText "markdown".toList
  | .rst => Converter.markupToText "rst".toList
  | .textclipping => inProcess .clippingToText
  | .tsv => inProcess .tsvToCsv
  | .numbers | .xlsx | .xls | .csv => Converter.copyThrough

/-- The spreadsheet half of `convert_one`. -/
def convertSpreadsheet : Converter (List PendingOutput) := do
  if run.kind = .csv then
    let copied ← Converter.copyThrough
    return [⟨run.singleName key, copied⟩]
  let workbook ← if run.kind = .numbers then Converter.convert key .input "xlsx".toList notAWorkbookSignature else pure .input
  let outputs ← Converter.splitWorkbook workbook
  return outputs.map fun sheet =>
    ⟨if sheet.total = 1 then run.singleName key
      else sheetDestinationName (run.group key) sheet.index sheet.total sheet.sheetName run.kind, sheet.path⟩

/-- `produce` is not called for a spreadsheet. -/
def convertOne (settings : Settings) : Converter (List PendingOutput) := do
  if run.kind.isSpreadsheet then run.convertSpreadsheet key
  else
    let produced ← run.produce key settings run.kind
    return [⟨run.singleName key, produced⟩]

end Run

end Pigeon.Transform
