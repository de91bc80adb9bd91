import Pigeon.Library.Folder
import Pigeon.Gate.Model
import Pigeon.Transform.Isolation
import Pigeon.Transform.Pipeline

/-! # One file on its way to the destination

`process_one` resumes from outputs that an earlier run left in the result directory, or converts the file and
places its outputs there, and then pushes them one by one. A step is one action on the file systems or on the
destination, so a run can stop between any two of them. Other tasks share both folders.
-/
namespace Pigeon.Transform

open Library
open Pigeon.Gate (GateDecision)

set_option autoImplicit false

def wrongInputKindSignatures : List Text :=
  ["has no video stream".toList, "is not an audio-only recording".toList, "is not a readable spreadsheet".toList,
    "is not a readable document".toList, "is not a Keynote presentation".toList,
    "is not a readable text clipping".toList, "is not a readable icns icon".toList,
    "is not a readable Procreate document".toList, "is not an iCalendar file".toList, "is not a vCard file".toList]

def isWrongInputKindError (err : Text) : Bool := wrongInputKindSignatures.any fun signature => signature <:+: err

def endpointUnreachableSignatures : List Text :=
  ["no such host".toList, "dial tcp".toList, "connection refused".toList, "connection reset by peer".toList,
    "i/o timeout".toList, "no route to host".toList, "network is unreachable".toList,
    "TLS handshake timeout".toList]

def isEndpointUnreachableError (err : Text) : Bool :=
  endpointUnreachableSignatures.any fun signature => signature <:+: err

/-- An input, with what its conversion gives each time it is tried. -/
structure Input (β : Type*) where
  digest : Text → Digest
  file : SourceFile
  resultDir : Path
  /-- What `classify` finds in the beginning of the file. -/
  signals : Option Text
  /-- On success the bytes of each output. -/
  converted : Except Text (Text → β)

inductive Phase (β : Type*) where
  | idle
  | preparing
  | converting
  | misdirected (err : Text)
  | skipping (signals : Text)
  | placing (scratch : Text → β) (todo placed : List Text)
  | pushing (todo finalPaths : List Text)
  | pushed (name : Text) (todo finalPaths : List Text)
  | finishing (finalPaths : List Text)
  | ended (result : ProcessResult)

/-- What is left of the input locally and at the destination, and how far its task is. -/
structure Attempt (β : Type*) where
  phase : Phase β
  source : Bool
  result : Folder β
  destination : Folder β

/-- The destination with the object that is placed under the name, if one is. -/
def Attempt.uploaded {β : Type*} (s : Attempt β) (name : Text) : Folder β :=
  match s.result.lookup name with
  | some content => s.destination.put name content
  | none => s.destination

inductive ProcessEvent (β : Type*) where
  | begin
  /-- The scratch directory is there and the disk has room, or not. -/
  | prepared (error : Option Text)
  | converted
  | placed (error : Option Text)
  | pushed
  /-- The object can be there although the push reports an error. -/
  | pushFailed (landed : Bool) (err : Text) (decision : GateDecision)
  /-- A removal is tried, and its failure has no consequence. -/
  | removed (gone : Bool)
  | stopped
  | pulled
  /-- Other tasks have changed the two folders. -/
  | elsewhere (result destination : Folder β)

def ProcessEvent.fromElsewhere {β : Type*} : ProcessEvent β → Bool
  | .elsewhere _ _ => true
  | _ => false

namespace Input

variable {β : Type*} (input : Input β)

def group : GroupKey := input.file.group input.digest

def outputs : List Text := input.file.outputs input.digest

def existing (names : List Text) : List Text :=
  (existingGroupOutputs input.resultDir names input.group.text).filterMap List.getLast?

def emailShape : Option Text := if input.file.kind = .md then input.signals else none

def pushFrom (todo finalPaths : List Text) : Phase β :=
  if todo = [] then .finishing finalPaths else .pushing todo finalPaths

def placeFrom (scratch : Text → β) (todo placed : List Text) : Phase β :=
  if todo = [] then pushFrom placed placed else .placing scratch todo placed

def begin (names : List Text) : Phase β :=
  let existing := input.existing names
  if !existing.isEmpty && (DestinationGroups.index existing).isComplete input.group.text then pushFrom existing existing
  else
    match input.emailShape with
    | some signals => .skipping signals
    | none => .preparing

def afterConversion : Phase β :=
  match input.converted with
  | .error err => if isWrongInputKindError err then .misdirected err else .ended (.error (.transcode, err))
  | .ok scratch => placeFrom scratch input.outputs []

def collisionMessage (name : Text) : Text :=
  "destination name collision placing '".toList ++ input.file.relativePath ++ "' at ".toList ++
    List.intercalate ['/'] (input.resultDir ++ [name]) ++
      " -- this should be statistically impossible with the current naming scheme and indicates a bug".toList

/-- `place_sheet` for a spreadsheet and `place_one` for any other kind. -/
def place (s : Attempt β) (scratch : Text → β) (name : Text) (todo placed : List Text) : Attempt β :=
  if (s.result.lookup name).isSome then
    if input.file.kind.isSpreadsheet then { s with phase := placeFrom scratch todo (placed ++ [name]) }
    else { s with phase := .ended (.error (.place, input.collisionMessage name)) }
  else { s with phase := placeFrom scratch todo (placed ++ [name]), result := s.result.put name (scratch name) }

def step (s : Attempt β) (event : ProcessEvent β) : Option (Attempt β) :=
  match event, s.phase with
  | .stopped, _ => some { s with phase := .idle }
  | .elsewhere result destination, _ => some { s with result, destination }
  | .pulled, .idle => some { s with source := true }
  | .begin, .idle => if s.source then some { s with phase := input.begin s.result.names } else none
  | .prepared none, .preparing => some { s with phase := .converting }
  | .prepared (some err), .preparing => some { s with phase := .ended (.error (.transcode, err)) }
  | .converted, .converting => some { s with phase := input.afterConversion }
  | .removed gone, .misdirected err =>
    some { s with phase := .ended (.error (.transcode, err)), source := s.source && !gone }
  | .removed gone, .skipping signals =>
    some { s with phase := .ended (.ok (.skippedEmailShaped signals)), source := s.source && !gone }
  | .placed none, .placing scratch (name :: todo) placed => some (input.place s scratch name todo placed)
  | .placed (some err), .placing _ (_ :: _) _ => some { s with phase := .ended (.error (.place, err)) }
  | .pushed, .pushing (name :: todo) finalPaths =>
    (s.result.lookup name).map fun content =>
      { s with phase := .pushed name todo finalPaths, destination := s.destination.put name content }
  | .pushFailed landed err decision, .pushing (name :: todo) finalPaths =>
    let destination := if landed then s.uploaded name else s.destination
    if isEndpointUnreachableError err && decision == .retry then
      some { s with phase := .pushing (name :: todo) finalPaths, destination }
    else some { s with phase := .ended (.error (.push, err)), destination }
  | .removed gone, .pushed name todo finalPaths =>
    some { s with phase := pushFrom todo finalPaths, result := if gone then s.result.remove name else s.result }
  | .removed gone, .finishing finalPaths =>
    some { s with phase := .ended (.ok (.pushed finalPaths)), source := s.source && !gone }
  | _, _ => none

end Input

end Pigeon.Transform
