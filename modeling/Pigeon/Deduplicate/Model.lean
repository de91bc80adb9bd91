import Pigeon.Library.Worklist
import Pigeon.Core.Data

/-! # Downloading, expanding and hashing

Every item of the queue is a bucket object or a member of an archive that was expanded. A
zip is replaced by its members, anything else is hashed for the placement pass. What the
disk, the remotes and the archives answer is given by the place of the item in the forest
of archives, so it does not depend on the order in which the workers come to it.
-/
namespace Pigeon.Deduplicate

open Library Pigeon.Core

set_option autoImplicit false

/-! ## Keys -/

/-- The part of a key behind the last separator of archive and member. -/
def afterZipSeparator (key : Text) : Text :=
  match Text.rsplitOnce '!' key with
  | some (_, after) => after
  | none => key

def extensionOf (key : Text) : Text :=
  match (Text.fileName (afterZipSeparator key)).bind fun name => (Text.stemExtension name).2 with
  | some extension => extension.map Char.toLower
  | none => "(none)".toList

def isZipKey (key : Text) : Bool := extensionOf key == "zip".toList

def isAppleMetadataEntry (entryName : Text) : Bool :=
  "__MACOSX/".toList.isPrefixOf entryName || isAppleDoubleBasename entryName

def isSkippableZipEntry (entryName : Text) : Bool :=
  isAppleMetadataEntry entryName || basename entryName == ".DS_Store".toList ||
    (entryName.splitOn '/').any fun segment => segment == ".git".toList || segment == "node_modules".toList

/-! ## Archives -/

def maxZipDepth : Nat := 10

def extractionRatioLimit : Nat := 100

/-- What one round of copying a member comes to. -/
inductive Chunk where
  | copied (bytes : Nat)
  | unreadable (error : Text)
  | unwritable (error : Text)
deriving DecidableEq, Repr

structure ZipEntry where
  name : Text
  isDir : Bool
  /-- The error of creating the raw file, if there is one. -/
  createError : Option Text
  chunks : List Chunk
deriving DecidableEq, Repr

/-- What opening an archive gives; an entry that cannot be read is an error. -/
inductive Archive where
  | panics
  | invalid (error : Text)
  | opened (compressedSize : Nat) (entries : List (Except Text ZipEntry))

structure ExtractedMember where
  name : Text
  index : Nat
  size : Nat
deriving DecidableEq, Repr

/-- The outcome, and the running total of the archive. -/
def copyCapped (budget : Nat) : List Chunk → Nat → Nat → Except Text Nat × Nat
  | [], written, total => (.ok written, total)
  | .unreadable error :: _, _, total => (.error ("failed to read zip entry: ".toList ++ error), total)
  | .unwritable error :: _, _, total => (.error ("failed to write extracted member: ".toList ++ error), total)
  | .copied bytes :: chunks, written, total =>
    if budget < total + bytes then
      (.error ("extraction cap (".toList ++ Nat.toDigits 10 budget ++ " bytes, ".toList ++
        Nat.toDigits 10 extractionRatioLimit ++ "x this archive's compressed size) exceeded".toList), total + bytes)
    else copyCapped budget chunks (written + bytes) (total + bytes)

/-- The loop of `expand_to_dir`: the members, and how many were dropped. -/
def expandEntries (budget : Nat) : List (Except Text ZipEntry) → Nat → Nat → Except Text (List ExtractedMember × Nat)
  | [], _, _ => .ok ([], 0)
  | .error error :: _, index, _ =>
    .error ("failed to read zip entry ".toList ++ Nat.toDigits 10 index ++ ": ".toList ++ error)
  | .ok entry :: entries, index, total =>
    if entry.isDir || isSkippableZipEntry entry.name then expandEntries budget entries (index + 1) total
    else
      match entry.createError with
      | some error => .error error
      | none =>
        match copyCapped budget entry.chunks 0 total with
        | (.ok size, total) =>
          (expandEntries budget entries (index + 1) total).map fun (members, dropped) =>
            (⟨entry.name, index, size⟩ :: members, dropped)
        | (.error _, total) =>
          (expandEntries budget entries (index + 1) total).map fun (members, dropped) => (members, dropped + 1)

/-- `expand_to_dir` of an archive that opens; the product saturates. -/
def expandToDir (compressedSize : Nat) (entries : List (Except Text ZipEntry)) :
    Except Text (List ExtractedMember × Nat) :=
  expandEntries (min (compressedSize * extractionRatioLimit) (2 ^ 64 - 1)) entries 0 0

/-! ## Items -/

/-- The number of a task, then the number of the entry in each archive on the way down. It
also names the item's raw file. -/
abbrev Place := List Nat

structure DeduplicateTask where
  bucketAlias : Text
  key : Text
  size : Nat
deriving DecidableEq, Repr

structure QueueItem where
  place : Place
  sourceKey : Option Text
  displayKey : Text
  onDisk : Bool
  depth : Nat
  size : Nat
  rootKey : Text
  bucketAlias : Text
deriving DecidableEq, Repr

structure HashedFile where
  originalKey : Text
  bucketAlias : Text
  scratchPath : Place
  extension : Text
  contentHash : Text
deriving DecidableEq, Repr

/-- What the run meets outside of itself. -/
structure World where
  buckets : List Text
  /-- `available_disk_space` before the download and before the expansion -/
  spaceToDownload : Place → Option Nat
  spaceToExpand : Place → Option Nat
  /-- Whether `next_scratch_path` succeeds. -/
  allocates : Place → Bool
  /-- Whether copying the key from the bucket succeeds. -/
  pulls : Place → Text → Text → Bool
  archive : Place → Archive
  /-- `sha256_file`; nothing for an error or a panic -/
  sha256File : Place → Option Text
  /-- Whether the directory is made, the file moved and the hash committed in `place_one`. -/
  makesDir : Place → Bool
  moves : Place → Bool
  commits : Place → Bool

def minFreeDiskBytes : Nat := 2 * 1024 * 1024 * 1024

def checkDiskSpace (available : Option Nat) (needed : Nat) : Bool :=
  match available with
  | none => true
  | some available => decide (max needed minFreeDiskBytes ≤ available)

inductive FailureCategory where
  | download
  | archive
  | hash
deriving DecidableEq, Repr

inductive ItemOutcome where
  | zipExpanded (displayKey : Text) (depth : Nat) (members : List QueueItem) (dropped : Nat)
  | hashed (depth : Nat) (file : HashedFile)
  | skippedAppleDouble (depth : Nat)
  | archiveOpenFailed (key error : Text)
  | failed (category : FailureCategory)
deriving DecidableEq, Repr

namespace QueueItem

def downloads (w : World) (item : QueueItem) : Bool :=
  w.buckets.contains item.bucketAlias &&
    checkDiskSpace (w.spaceToDownload item.place) item.size &&
    w.allocates item.place &&
    w.pulls item.place item.bucketAlias (item.sourceKey.getD item.displayKey)

def member (item : QueueItem) (extracted : ExtractedMember) : QueueItem where
  place := item.place ++ [extracted.index]
  sourceKey := none
  displayKey := item.displayKey ++ '!' :: extracted.name
  onDisk := true
  depth := item.depth + 1
  size := extracted.size
  rootKey := item.rootKey
  bucketAlias := item.bucketAlias

def expand (w : World) (item : QueueItem) : ItemOutcome :=
  if maxZipDepth ≤ item.depth then .failed .archive
  else if checkDiskSpace (w.spaceToExpand item.place) 0 then
    match w.archive item.place with
    | .panics => .failed .archive
    | .invalid error => .archiveOpenFailed item.displayKey error
    | .opened compressedSize entries =>
      match expandToDir compressedSize entries with
      | .ok (members, dropped) => .zipExpanded item.displayKey item.depth (members.map item.member) dropped
      | .error error => .archiveOpenFailed item.displayKey error
  else .failed .archive

def hashFile (w : World) (item : QueueItem) : ItemOutcome :=
  match w.sha256File item.place with
  | some contentHash =>
    .hashed item.depth ⟨item.displayKey, item.bucketAlias, item.place, extensionOf item.displayKey, contentHash⟩
  | none => .failed .hash

end QueueItem

/-- The root key that `process_item` returns with the outcome is the one of the item. -/
def processItem (w : World) (item : QueueItem) : ItemOutcome :=
  if isAppleDoubleBasename item.displayKey then .skippedAppleDouble item.depth
  else if item.onDisk || item.downloads w then
    if isZipKey item.displayKey then item.expand w else item.hashFile w
  else .failed .download

/-! ## The worker loop -/

structure FailureBreakdown where
  download : Nat
  archive : Nat
  hash : Nat
  placement : Nat
deriving DecidableEq, Repr

def FailureBreakdown.record (failures : FailureBreakdown) : FailureCategory → FailureBreakdown
  | .download => { failures with download := failures.download + 1 }
  | .archive => { failures with archive := failures.archive + 1 }
  | .hash => { failures with hash := failures.hash + 1 }

structure ArchiveFailure where
  key : Text
  error : Text
deriving DecidableEq, Repr

structure Gathered where
  hashedFiles : List HashedFile
  finishedRootKeys : List (Text × Text)
  failureBreakdown : FailureBreakdown
  droppedMembers : Nat
  taintedRoots : List (Text × Text)
  appleDoubleSkippedRoots : List (Text × Text)
  archiveFailures : List ArchiveFailure
deriving DecidableEq, Repr

def Gathered.nothing : Gathered := ⟨[], [], ⟨0, 0, 0, 0⟩, 0, [], [], []⟩

/-- What a worker does with the outcome of an item; the members go on the queue. -/
def record (w : World) (acc : Gathered) (item : QueueItem) : Gathered :=
  match processItem w item with
  | .zipExpanded displayKey depth _ dropped =>
    let acc := if depth = 0 then
        { acc with finishedRootKeys := acc.finishedRootKeys ++ [(item.bucketAlias, displayKey)] }
      else acc
    if 0 < dropped then
      { acc with
        failureBreakdown :=
          { acc.failureBreakdown with archive := acc.failureBreakdown.archive + dropped }
        droppedMembers := acc.droppedMembers + dropped
        taintedRoots := acc.taintedRoots ++ [(item.bucketAlias, item.rootKey)] }
    else acc
  | .hashed depth file =>
    let acc := if depth = 0 then
        { acc with finishedRootKeys := acc.finishedRootKeys ++ [(item.bucketAlias, file.originalKey)] }
      else acc
    { acc with hashedFiles := acc.hashedFiles ++ [file] }
  | .skippedAppleDouble depth =>
    if depth = 0 then
      { acc with appleDoubleSkippedRoots := acc.appleDoubleSkippedRoots ++ [(item.bucketAlias, item.rootKey)] }
    else acc
  | .archiveOpenFailed key error =>
    { acc with
      taintedRoots := acc.taintedRoots ++ [(item.bucketAlias, item.rootKey)]
      failureBreakdown := acc.failureBreakdown.record .archive
      archiveFailures := acc.archiveFailures ++ [⟨key, error⟩] }
  | .failed category =>
    { acc with
      taintedRoots := acc.taintedRoots ++ [(item.bucketAlias, item.rootKey)]
      failureBreakdown := acc.failureBreakdown.record category }

def membersOf (w : World) (item : QueueItem) : List QueueItem :=
  match processItem w item with
  | .zipExpanded _ _ members _ => members
  | _ => []

def rootItem (index : Nat) (task : DeduplicateTask) : QueueItem where
  place := [index]
  sourceKey := some task.key
  displayKey := task.key
  onDisk := false
  depth := 0
  size := task.size
  rootKey := task.key
  bucketAlias := task.bucketAlias

def rootItems (tasks : List DeduplicateTask) : List QueueItem := tasks.mapIdx rootItem

end Pigeon.Deduplicate
