import Pigeon.Transform.Convert

/-! # How input kinds and qualities are spelled

A kind is found by any of its extensions, lies under its first one by default, and is shown and given by its name.
-/
namespace Pigeon.Transform

open Library

set_option autoImplicit false

namespace InputFileType

def extensions : InputFileType → List Text
  | .png => ["png".toList]
  | .jpeg => ["jpg".toList, "jpeg".toList]
  | .heic => ["heic".toList]
  | .mov => ["mov".toList]
  | .m4v => ["m4v".toList]
  | .mp4 | .mp4Audio => ["mp4".toList]
  | .numbers => ["numbers".toList]
  | .xlsx => ["xlsx".toList]
  | .xls => ["xls".toList]
  | .csv => ["csv".toList]
  | .m4a => ["m4a".toList]
  | .mp3 => ["mp3".toList]
  | .aac => ["aac".toList]
  | .wav => ["wav".toList]
  | .opus => ["opus".toList]
  | .doc => ["doc".toList]
  | .docx => ["docx".toList]
  | .pages => ["pages".toList]
  | .rtf => ["rtf".toList]
  | .pdf => ["pdf".toList]
  | .epub => ["epub".toList]
  | .pptx => ["pptx".toList]
  | .key => ["key".toList]
  | .txt => ["txt".toList]
  | .md => ["md".toList, "markdown".toList, "mkd".toList]
  | .rst => ["rst".toList]
  | .textclipping => ["textclipping".toList]
  | .tsv => ["tsv".toList]
  | .avif => ["avif".toList]
  | .tif => ["tif".toList]
  | .tiff => ["tiff".toList]
  | .webp => ["webp".toList]
  | .ico => ["ico".toList]
  | .icns => ["icns".toList]
  | .procreate => ["procreate".toList]
  | .procreate2 => ["procreate 2".toList]
  | .ai => ["ai".toList]
  | .emz => ["emz".toList]
  | .svg => ["svg".toList]
  | .bmp => ["bmp".toList]
  | .eps => ["eps".toList]
  | .ics => ["ics".toList]
  | .vcf => ["vcf".toList]

def canonicalExtension (kind : InputFileType) : Text := kind.extensions.headD []

def name : InputFileType → Text
  | .mp4Audio => "mp4-audio".toList
  | .procreate2 => "procreate-2".toList
  | kind => kind.canonicalExtension

def unknown (other : Text) : Text :=
  "unknown --input-file-type '".toList ++ other ++ ("' (expected an image kind png, jpeg, heic, " ++
    "avif, tif, tiff, webp or bmp; an icon or artwork kind ico, icns, procreate or " ++
    "procreate-2; a vector kind ai, emz, eps or svg; " ++
    "a video kind mov, m4v or mp4; an audio kind mp4-audio, m4a, mp3, aac, wav or " ++
    "opus; a spreadsheet kind numbers, xlsx, xls or csv; a document kind doc, docx, " ++
    "pages, rtf, pdf, epub, pptx or key; a text kind txt, md, markdown, mkd, rst, " ++
    "textclipping, ics or vcf; or tsv)").toList

/-- Every other spelling is refused. -/
def parse (value : Text) : Except Text InputFileType :=
  let value := value.map Char.toLower
  match String.ofList value with
  | "png" => .ok .png
  | "jpeg" | "jpg" => .ok .jpeg
  | "heic" => .ok .heic
  | "mov" => .ok .mov
  | "m4v" => .ok .m4v
  | "mp4" => .ok .mp4
  | "mp4-audio" => .ok .mp4Audio
  | "numbers" => .ok .numbers
  | "xlsx" => .ok .xlsx
  | "xls" => .ok .xls
  | "csv" => .ok .csv
  | "m4a" => .ok .m4a
  | "mp3" => .ok .mp3
  | "aac" => .ok .aac
  | "wav" => .ok .wav
  | "opus" => .ok .opus
  | "doc" => .ok .doc
  | "docx" => .ok .docx
  | "pages" => .ok .pages
  | "rtf" => .ok .rtf
  | "pdf" => .ok .pdf
  | "epub" => .ok .epub
  | "pptx" => .ok .pptx
  | "key" => .ok .key
  | "txt" => .ok .txt
  | "md" | "markdown" | "mkd" => .ok .md
  | "rst" => .ok .rst
  | "textclipping" => .ok .textclipping
  | "tsv" => .ok .tsv
  | "avif" => .ok .avif
  | "tif" => .ok .tif
  | "tiff" => .ok .tiff
  | "webp" => .ok .webp
  | "ico" => .ok .ico
  | "icns" => .ok .icns
  | "procreate" => .ok .procreate
  | "procreate-2" | "procreate 2" => .ok .procreate2
  | "ai" => .ok .ai
  | "emz" => .ok .emz
  | "svg" => .ok .svg
  | "bmp" => .ok .bmp
  | "eps" => .ok .eps
  | "ics" => .ok .ics
  | "vcf" => .ok .vcf
  | _ => .error (unknown value)

theorem parse_name (kind : InputFileType) : parse kind.name = .ok kind := by
  cases kind <;> rfl

end InputFileType

namespace AudioQuality

def asStr : AudioQuality → Text
  | .low => "low".toList
  | .medium => "medium".toList
  | .high => "high".toList
  | .transparent => "transparent".toList

def parse (value : Text) : Except Text AudioQuality :=
  let value := value.map Char.toLower
  match String.ofList value with
  | "low" => .ok .low
  | "medium" => .ok .medium
  | "high" => .ok .high
  | "transparent" => .ok .transparent
  | _ => .error ("unknown --audio-quality '".toList ++ value ++ "' (expected low, medium, high, or transparent)".toList)

end AudioQuality

namespace VideoQuality

def asStr : VideoQuality → Text
  | .low => "low".toList
  | .medium => "medium".toList
  | .high => "high".toList
  | .lossless => "lossless".toList

def parse (value : Text) : Except Text VideoQuality :=
  let value := value.map Char.toLower
  match String.ofList value with
  | "low" => .ok .low
  | "medium" => .ok .medium
  | "high" => .ok .high
  | "lossless" => .ok .lossless
  | _ => .error ("unknown --video-quality '".toList ++ value ++ "' (expected low, medium, high, or lossless)".toList)

end VideoQuality

/-- Only looked at for a kind that is a sound. -/
def InputFileType.defaultAudioQuality : InputFileType → AudioQuality
  | .mp4Audio => .medium
  | .m4a | .mp3 | .aac | .wav | .opus => .transparent
  | _ => .medium

end Pigeon.Transform
