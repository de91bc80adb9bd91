import Pigeon.Core.Data

/-! # Destination names and what a listing of them says

Every output of one input carries the input's group key: the stem of its file name and a digest of its
key. The members of a group with several outputs carry their number and how many there are. What is
complete is read back from the names alone.
-/
namespace Pigeon.Transform

open Library
open Pigeon.Core (sanitizeFilename strictStem sheetSlug)

set_option autoImplicit false

inductive InputFileType where
  | png | jpeg | heic | mov | m4v | mp4 | mp4Audio | numbers | xlsx | xls | csv | m4a | mp3 | aac | wav | opus
  | doc | docx | pages | rtf | pdf | epub | pptx | key | txt | md | rst | textclipping | tsv
  | avif | tif | tiff | webp | ico | icns | procreate | procreate2 | ai | emz | svg | bmp | eps | ics | vcf
deriving DecidableEq, Repr

namespace InputFileType

def outputExtension : InputFileType → Text
  | .png | .jpeg | .heic => "jpg".toList
  | .mov | .m4v | .mp4 => "mp4".toList
  | .mp4Audio | .m4a | .mp3 | .aac | .wav | .opus => "opus".toList
  | .numbers | .xlsx | .xls | .csv | .tsv => "csv".toList
  | .doc | .docx | .pages | .rtf | .pdf | .epub | .pptx | .key => "pdf".toList
  | .txt | .md | .rst | .textclipping | .ics | .vcf => "txt".toList
  | .avif | .tif | .tiff | .webp | .bmp => "jpg".toList
  | .ico | .icns | .procreate | .procreate2 => "png".toList
  | .ai | .emz | .eps | .svg => "svg".toList

def isSpreadsheet : InputFileType → Bool
  | .numbers | .xlsx | .xls | .csv => true
  | _ => false

end InputFileType

def nameHashHexLen : Nat := 16

def IsDigest (s : Text) : Prop := s.length = nameHashHexLen ∧ s.all Char.isHexDigit

instance (s : Text) : Decidable (IsDigest s) := inferInstanceAs (Decidable (_ ∧ _))

abbrev Digest := { s : Text // IsDigest s }

/-- `{stem}-{digest16}` -/
structure GroupKey where
  stem : Text
  digest : Digest

def GroupKey.text (group : GroupKey) : Text := group.stem ++ '-' :: group.digest.val

/-- What is hashed: `{source_path}\u{1}{original_relative_path}` -/
def hashInput (sourcePath relativePath : Text) : Text := sourcePath ++ Char.ofNat 1 :: relativePath

def groupStem (relativePath : Text) (kind : InputFileType) : Text :=
  let rawStem := ((Text.fileName relativePath).map fun name => (Text.stemExtension name).1).getD "file".toList
  if kind.isSpreadsheet then strictStem rawStem else sanitizeFilename rawStem

/-- The digest stands for the first hex digits of a SHA-256 hash. -/
def groupKey (digest : Text → Digest) (sourcePath relativePath : Text) (kind : InputFileType) : GroupKey where
  stem := groupStem relativePath kind
  digest := digest (hashInput sourcePath relativePath)

def computeDestinationName (digest : Text → Digest) (sourcePath relativePath : Text) (kind : InputFileType) : Text :=
  (groupKey digest sourcePath relativePath kind).text ++ '.' :: kind.outputExtension

/-- `{nn}of{tt}` -/
def sheetMarker (index total : Nat) : Text := Text.showPadded 2 index ++ "of".toList ++ Text.showPadded 2 total

def sheetDestinationName (group : Text) (index total : Nat) (sheetName : Text) (kind : InputFileType) : Text :=
  group ++ ('-' :: sheetMarker index total ++ '-' :: sheetSlug sheetName) ++ '.' :: kind.outputExtension

/-- The names of the non-empty sheets; a workbook without one is refused, and their number is a `usize`. -/
structure Workbook where
  sheets : List Text
  nonempty : sheets ≠ []
  length_lt : sheets.length < 2 ^ 64

/-- The destination names that `convert_spreadsheet` gives. -/
def convertSpreadsheet (kind : InputFileType) (group singleName : Text) (workbook : Workbook) : List Text :=
  if kind = .csv then [singleName]
  else
    workbook.sheets.zipIdx.map fun entry =>
      if workbook.sheets.length = 1 then singleName
      else sheetDestinationName group (entry.2 + 1) workbook.sheets.length entry.1 kind

structure GroupState where
  plain : Bool := false
  members : Finset Nat := ∅
  declaredTotal : Option Nat := none
  inconsistent : Bool := false
deriving DecidableEq

/-- The group-shaped beginnings of a stem, the first part of which is already gone through. -/
def candidateGroupsFrom (before : Text) : Text → List (Text × Text)
  | [] => []
  | c :: rest =>
    if c = '-' then
      if Text.byteLength rest < nameHashHexLen then []
      else
        let remainder := rest.drop nameHashHexLen
        if IsDigest (rest.take nameHashHexLen) ∧ (remainder = [] ∨ remainder.head? = some '-') then
          (before ++ c :: rest.take nameHashHexLen, remainder) :: candidateGroupsFrom (before ++ [c]) rest
        else candidateGroupsFrom (before ++ [c]) rest
    else candidateGroupsFrom (before ++ [c]) rest

def candidateGroups (stem : Text) : List (Text × Text) := candidateGroupsFrom [] stem

def parseSheetMarker : Text → Option (Nat × Nat)
  | '-' :: tail =>
    match Text.splitOnce ['-'] tail with
    | some (marker, _) =>
      match Text.splitOnce "of".toList marker with
      | some (index, total) =>
        if index = [] ∨ total = [] then none
        else if !index.all Char.isDigit || !total.all Char.isDigit then none
        else
          match Text.parseUsize index, Text.parseUsize total with
          | some index, some total =>
            if index = 0 ∨ total = 0 ∨ total < index then none else some (index, total)
          | _, _ => none
      | none => none
    | none => none
  | _ => none

def GroupState.record (state : GroupState) (remainder : Text) : GroupState :=
  if remainder = [] then { state with plain := true }
  else
    match parseSheetMarker remainder with
    | some (index, total) =>
      { state with
        members := insert index state.members
        declaredTotal := some (state.declaredTotal.getD total)
        inconsistent := state.inconsistent || state.declaredTotal.any (· != total) }
    | none => state

/-- `DestinationGroups`, with its hash map as a function. -/
abbrev DestinationGroups := Text → Option GroupState

namespace DestinationGroups

def register (groups : DestinationGroups) (candidate : Text × Text) : DestinationGroups :=
  Function.update groups candidate.1 (some (((groups candidate.1).getD {}).record candidate.2))

def nameStem (name : Text) : Text :=
  match Text.rsplitOnce '.' name with
  | some (head, _) => head
  | none => name

def index (names : List Text) : DestinationGroups :=
  names.foldl (fun groups name => (candidateGroups (nameStem name)).foldl register groups) fun _ => none

def isComplete (groups : DestinationGroups) (group : Text) : Bool :=
  match groups group with
  | none => false
  | some state => state.plain || (!state.inconsistent && state.declaredTotal == some state.members.card)

end DestinationGroups

/-- The files in the folder of results that carry the group's name, whatever input they come from. -/
def existingGroupOutputs (resultDir : Path) (names : List Text) (group : Text) : List Path :=
  let belongs name := (group ++ ['.']).isPrefixOf name || (group ++ ['-']).isPrefixOf name
  ((names.filter belongs).mergeSort fun name other => decide (name ≤ other)).map fun name => resultDir ++ [name]

end Pigeon.Transform
