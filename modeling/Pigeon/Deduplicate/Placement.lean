import Pigeon.Deduplicate.Model

/-! # Placing the hashed files and the checkpoint

One pass over the files in a fixed order: a hash of the index makes a file a duplicate, any
other file is moved below the directory of its extension under a free name. A root is
checkpointed by what the workers and this pass report about it.
-/
namespace Pigeon.Deduplicate

open Library Pigeon.Core

set_option autoImplicit false

structure ContentIndexEntry where
  relativePath : Text
  originalKey : Text
  sourceBucketAlias : Text
deriving DecidableEq, Repr

/-- The hash map of `ContentIndex`, the entry inserted last first. -/
abbrev ContentIndex := List (Text × ContentIndexEntry)

structure MergeRecord where
  duplicateKey : Text
  duplicateBucketAlias : Text
  keptPath : Text
  keptOriginalKey : Text
  keptBucketAlias : Text
  contentHash : Text
deriving DecidableEq, Repr

inductive PlaceError where
  | createDir
  | move
  | commit
deriving DecidableEq, Repr

def isUndatedKey (key : Text) : Bool :=
  let key := afterZipSeparator key
  "0000-00-00-".toList.isPrefixOf ((Text.fileName key).getD key)

/-- The comparison of `place_and_report`: dated keys first, then by key. -/
def PlacedBefore (a b : HashedFile) : Prop :=
  isUndatedKey a.originalKey < isUndatedKey b.originalKey ∨
    isUndatedKey a.originalKey = isUndatedKey b.originalKey ∧ a.originalKey ≤ b.originalKey

instance : DecidableRel PlacedBefore := fun a b => by unfold PlacedBefore; infer_instance

namespace HashedFile

def pair (file : HashedFile) : Text × Text := (file.bucketAlias, file.originalKey)

/-- The directory of an empty extension is the result directory. -/
def extensionDir (file : HashedFile) : Path := if file.extension = [] then [] else [file.extension]

def originalName (file : HashedFile) : Text :=
  let keyTail := afterZipSeparator file.originalKey
  (Text.fileName keyTail).getD keyTail

end HashedFile

/-- The tree holds the raw files that were moved into it. -/
def placeOne (w : World) (tree : FileTree Place) (index : ContentIndex) (file : HashedFile) :
    FileTree Place × Except PlaceError ContentIndex :=
  match if w.makesDir file.scratchPath then tree.createDirAll file.extensionDir else none with
  | none => (tree, .error .createDir)
  | some tree =>
    let name := uniqueName tree file.extensionDir (sanitizeFilename file.originalName)
    match if w.moves file.scratchPath then tree.write (file.extensionDir ++ [name]) file.scratchPath else none with
    | none => (tree, .error .move)
    | some tree =>
      if w.commits file.scratchPath then
        (tree, .ok ((file.contentHash, ⟨file.extension ++ '/' :: name, file.originalKey, file.bucketAlias⟩) :: index))
      else (tree, .error .commit)

/-- The files themselves stand for the counts of `PlacementSummary`. -/
structure Placement where
  tree : FileTree Place
  index : ContentIndex
  records : List MergeRecord
  finishedKeys : List (Text × Text)
  placed : List HashedFile
  duplicatesSkipped : List HashedFile
  failed : List HashedFile

def Placement.start (tree : FileTree Place) (index : ContentIndex) : Placement := ⟨tree, index, [], [], [], [], []⟩

def placeFile (w : World) (p : Placement) (file : HashedFile) : Placement :=
  match p.index.lookup file.contentHash with
  | some kept =>
    { p with
      records := p.records ++ [⟨file.originalKey, file.bucketAlias, kept.relativePath, kept.originalKey,
        kept.sourceBucketAlias, file.contentHash⟩]
      duplicatesSkipped := p.duplicatesSkipped ++ [file]
      finishedKeys := p.finishedKeys ++ [file.pair] }
  | none =>
    match placeOne w p.tree p.index file with
    | (tree, .error _) => { p with tree := tree, failed := p.failed ++ [file] }
    | (tree, .ok index) =>
      { p with
        tree := tree
        index := index
        placed := p.placed ++ [file]
        finishedKeys := p.finishedKeys ++ [file.pair] }

def placeAndReport (w : World) (tree : FileTree Place) (index : ContentIndex) (files : List HashedFile) : Placement :=
  (files.insertionSort PlacedBefore).foldl (placeFile w) (.start tree index)

/-- The roots that `run_deduplicate_job` hands to `append_checkpoint`, in order. -/
def checkpointRoots (gathered : Gathered) (placedKeys : List (Text × Text)) : List (Text × Text) :=
  gathered.finishedRootKeys.filter (fun root =>
      !gathered.taintedRoots.contains root && (placedKeys.contains root || isZipKey root.2)) ++
    gathered.appleDoubleSkippedRoots

/-! ## One file -/

/-- The branch of `place_and_report` that reports a file as failed. -/
def PlaceFails (w : World) (p : Placement) (file : HashedFile) : Prop :=
  p.index.lookup file.contentHash = none ∧ ∃ error, (placeOne w p.tree p.index file).2 = .error error

inductive PlacesFile (w : World) (p : Placement) (file : HashedFile) : Placement → Prop where
  | duplicate {kept : ContentIndexEntry} (hKept : p.index.lookup file.contentHash = some kept)
    (record : MergeRecord) :
    PlacesFile w p file { p with
      records := p.records ++ [record]
      duplicatesSkipped := p.duplicatesSkipped ++ [file]
      finishedKeys := p.finishedKeys ++ [file.pair] }
  | failed {tree : FileTree Place} {error : PlaceError} (hFresh : p.index.lookup file.contentHash = none)
    (hPlace : placeOne w p.tree p.index file = (tree, .error error)) :
    PlacesFile w p file { p with tree := tree, failed := p.failed ++ [file] }
  | placed {tree : FileTree Place} {index : ContentIndex} (hFresh : p.index.lookup file.contentHash = none)
    (hPlace : placeOne w p.tree p.index file = (tree, .ok index)) :
    PlacesFile w p file { p with
      tree := tree
      index := index
      placed := p.placed ++ [file]
      finishedKeys := p.finishedKeys ++ [file.pair] }

theorem placeFile_cases (w : World) (p : Placement) (file : HashedFile) : PlacesFile w p file (placeFile w p file) := by
  rw [placeFile]
  split
  · rename_i hKept
    exact .duplicate hKept _
  · rename_i hFresh
    split
    · rename_i hPlace
      exact .failed hFresh hPlace
    · rename_i hPlace
      exact .placed hFresh hPlace

theorem PlacesFile.mem_failed {w : World} {p next : Placement} {file : HashedFile} (h : PlacesFile w p file next)
    (other : HashedFile) : other ∈ next.failed ↔ other ∈ p.failed ∨ other = file ∧ PlaceFails w p file := by
  cases h with
  | duplicate hKept _ => simp [PlaceFails, hKept]
  | failed hFresh hPlace => simp [PlaceFails, hFresh, hPlace]
  | placed hFresh hPlace => simp [PlaceFails, hPlace]

theorem PlacesFile.mem_finishedKeys {w : World} {p next : Placement} {file : HashedFile}
    (h : PlacesFile w p file next) (root : Text × Text) :
    root ∈ next.finishedKeys ↔ root ∈ p.finishedKeys ∨ root = file.pair ∧ ¬ PlaceFails w p file := by
  cases h with
  | duplicate hKept _ => simp [PlaceFails, hKept]
  | failed hFresh hPlace => simp [PlaceFails, hFresh, hPlace]
  | placed hFresh hPlace => simp [PlaceFails, hPlace]

/-! ## The tree and the index only grow -/

theorem placeOne_tree_keeps (w : World) {tree : FileTree Place} (index : ContentIndex) (file : HashedFile)
    {path : Path} {node : Node Place} (hNode : tree.lookup path = some node) :
    (placeOne w tree index file).1.lookup path = some node := by
  unfold placeOne
  split
  · exact hNode
  · rename_i made hMade
    obtain ⟨-, hMade⟩ := Option.ite_none_right_eq_some.mp hMade
    have hKept := FileTree.createDirAll_keeps hMade hNode
    dsimp only
    split
    · exact hKept
    · rename_i written hWritten
      obtain ⟨-, hWritten⟩ := Option.ite_none_right_eq_some.mp hWritten
      have hFree := lookup_uniqueName made file.extensionDir (sanitizeFilename file.originalName)
      have hSame : written.lookup path = some node := by
        rw [FileTree.lookup_write hWritten, if_neg, hKept]
        rintro rfl
        rw [hKept] at hFree
        cases hFree
      split
      · exact hSame
      · exact hSame

theorem placeOne_placed {w : World} {tree next : FileTree Place} {index committed : ContentIndex} {file : HashedFile}
    (h : placeOne w tree index file = (next, .ok committed)) :
    ∃ name, tree.lookup (file.extensionDir ++ [name]) = none ∧
      next.lookup (file.extensionDir ++ [name]) = some (.file file.scratchPath) ∧
        committed =
          (file.contentHash, ⟨file.extension ++ '/' :: name, file.originalKey, file.bucketAlias⟩) :: index := by
  unfold placeOne at h
  split at h
  · cases h
  · rename_i made hMade
    obtain ⟨-, hMade⟩ := Option.ite_none_right_eq_some.mp hMade
    dsimp only at h
    split at h
    · cases h
    · rename_i written hWritten
      obtain ⟨-, hWritten⟩ := Option.ite_none_right_eq_some.mp hWritten
      split at h
      · cases h
        refine ⟨_, ?_, by rw [FileTree.lookup_write hWritten, if_pos rfl], rfl⟩
        have hFree := lookup_uniqueName made file.extensionDir (sanitizeFilename file.originalName)
        rw [Option.eq_none_iff_forall_ne_some]
        intro node hNode
        rw [FileTree.createDirAll_keeps hMade hNode] at hFree
        cases hFree
      · cases h

theorem placeOne_ok {w : World} {tree next : FileTree Place} {index committed : ContentIndex} {file : HashedFile}
    (h : placeOne w tree index file = (next, .ok committed)) :
    (∃ path, tree.lookup path = none ∧ next.lookup path = some (.file file.scratchPath)) ∧
      ∃ entry, committed = (file.contentHash, entry) :: index := by
  obtain ⟨name, hFree, hHolds, hCommitted⟩ := placeOne_placed h
  exact ⟨⟨_, hFree, hHolds⟩, _, hCommitted⟩

/-- What a file that is not reported as failed came to. -/
structure Accounted (p : Placement) : Prop where
  placed : ∀ file ∈ p.placed, ∃ path, p.tree.lookup path = some (.file file.scratchPath)
  duplicate : ∀ file ∈ p.duplicatesSkipped, (p.index.lookup file.contentHash).isSome

theorem accounted_start (tree : FileTree Place) (index : ContentIndex) : Accounted (.start tree index) where
  placed file hFile := by cases hFile
  duplicate file hFile := by cases hFile

theorem lookup_cons_isSome {index : ContentIndex} {hash other : Text} (entry : ContentIndexEntry)
    (h : (index.lookup other).isSome) : (List.lookup other ((hash, entry) :: index)).isSome := by
  rw [List.lookup_cons]
  split
  · rfl
  · exact h

theorem PlacesFile.accounted {w : World} {p next : Placement} {file : HashedFile} (hFile : PlacesFile w p file next)
    (h : Accounted p) : Accounted next := by
  cases hFile with
  | duplicate hKept _ =>
    refine ⟨h.placed, fun other hOther => ?_⟩
    obtain hOld | hNew := List.mem_append.mp hOther
    · exact h.duplicate other hOld
    · rw [List.mem_singleton.mp hNew]
      exact Option.isSome_iff_exists.mpr ⟨_, hKept⟩
  | failed _ hPlace =>
    refine ⟨fun other hOther => ?_, h.duplicate⟩
    obtain ⟨path, hPath⟩ := h.placed other hOther
    have hKept := placeOne_tree_keeps w p.index file hPath
    rw [hPlace] at hKept
    exact ⟨path, hKept⟩
  | placed _ hPlace =>
    obtain ⟨⟨path, -, hPath⟩, entry, rfl⟩ := placeOne_ok hPlace
    constructor
    · intro other hOther
      obtain hOld | hNew := List.mem_append.mp hOther
      · obtain ⟨oldPath, hOldPath⟩ := h.placed other hOld
        have hKept := placeOne_tree_keeps w p.index file hOldPath
        rw [hPlace] at hKept
        exact ⟨oldPath, hKept⟩
      · rw [List.mem_singleton.mp hNew]
        exact ⟨path, hPath⟩
    · exact fun other hOther => lookup_cons_isSome entry (h.duplicate other hOther)

/-! ## The pass -/

theorem foldl_accounted (w : World) (files : List HashedFile) {p : Placement} (h : Accounted p) :
    Accounted (files.foldl (placeFile w) p) := by
  induction files generalizing p with
  | nil => exact h
  | cons file files ih => exact ih ((placeFile_cases w p file).accounted h)

theorem placeAndReport_accounted (w : World) (tree : FileTree Place) (index : ContentIndex) (files : List HashedFile) :
    Accounted (placeAndReport w tree index files) := foldl_accounted w _ (accounted_start tree index)

def Placement.settled (p : Placement) : List HashedFile := p.placed ++ p.duplicatesSkipped ++ p.failed

theorem PlacesFile.settled {w : World} {p next : Placement} {file : HashedFile} (h : PlacesFile w p file next)
    {other : HashedFile} (hOther : other = file ∨ other ∈ p.settled) : other ∈ next.settled := by
  cases h with
  | duplicate _ _ | failed _ _ | placed _ _ =>
    simp only [Placement.settled, List.mem_append, List.mem_singleton] at hOther ⊢
    tauto

theorem foldl_settled (w : World) (files : List HashedFile) (p : Placement) {file : HashedFile}
    (hFile : file ∈ files ∨ file ∈ p.settled) : file ∈ (files.foldl (placeFile w) p).settled := by
  induction files generalizing p with
  | nil => exact hFile.resolve_left List.not_mem_nil
  | cons first files ih =>
    apply ih
    obtain hFiles | hSettled := hFile
    · obtain hFirst | hLater := List.mem_cons.mp hFiles
      · exact .inr ((placeFile_cases w p first).settled (.inl hFirst))
      · exact .inl hLater
    · exact .inr ((placeFile_cases w p first).settled (.inr hSettled))

theorem mem_settled (w : World) (tree : FileTree Place) (index : ContentIndex) {files : List HashedFile}
    {file : HashedFile} (hFile : file ∈ files) : file ∈ (placeAndReport w tree index files).settled :=
  foldl_settled w _ _ (.inl ((List.mem_insertionSort _).mpr hFile))

end Pigeon.Deduplicate
