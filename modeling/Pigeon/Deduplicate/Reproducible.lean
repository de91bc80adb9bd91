import Pigeon.Deduplicate.Checkpoint
import Pigeon.Deduplicate.Outcome

/-! # The order in which the files come

The pass sorts the files by key and leaves files of one key in the order in which they came. The outcome does not
depend on that order exactly when files of one key are of one bucket and one content.
-/
namespace Pigeon.Deduplicate

open Library Pigeon.Core

set_option autoImplicit false

/-! ## Files and outcomes that cannot be told apart -/

def SameContent (w : World) (a b : Place) : Prop := w.sha256File a = w.sha256File b

/-- The file is one that `process_item` hashed. -/
structure HashedFile.HashedIn (w : World) (file : HashedFile) : Prop where
  hash : w.sha256File file.scratchPath = some file.contentHash
  extension : file.extension = extensionOf file.originalKey

/-- The file system does the same for both files. -/
structure SameWrites (w : World) (file other : HashedFile) : Prop where
  makesDir : w.makesDir file.scratchPath = w.makesDir other.scratchPath
  moves : w.moves file.scratchPath = w.moves other.scratchPath
  commits : w.commits file.scratchPath = w.commits other.scratchPath

/-- The files differ in their raw files at most, and these have the same content. -/
structure Interchangeable (w : World) (file other : HashedFile) : Prop extends SameWrites w file other where
  key : file.originalKey = other.originalKey
  bucketAlias : file.bucketAlias = other.bucketAlias
  extension : file.extension = other.extension
  hash : file.contentHash = other.contentHash
  content : SameContent w file.scratchPath other.scratchPath

/-- The same tree up to raw files of the same content, the same index and the same report. -/
structure SameOutcome (w : World) (p q : Placement) : Prop where
  tree : FileTree.Alike (SameContent w) p.tree q.tree
  index : p.index = q.index
  records : p.records = q.records
  finishedKeys : p.finishedKeys = q.finishedKeys
  placed : p.placed.length = q.placed.length
  duplicatesSkipped : p.duplicatesSkipped.length = q.duplicatesSkipped.length
  failed : p.failed.length = q.failed.length

theorem placeOne_alike {w : World} {s t : FileTree Place} (hTree : FileTree.Alike (SameContent w) s t)
    (index : ContentIndex) {file other : HashedFile} (h : Interchangeable w file other) :
    FileTree.Alike (SameContent w) (placeOne w s index file).1 (placeOne w t index other).1 ∧
      (placeOne w s index file).2 = (placeOne w t index other).2 := by
  have hDir : file.extensionDir = other.extensionDir := by
    rw [HashedFile.extensionDir, HashedFile.extensionDir, h.extension]
  have hName : file.originalName = other.originalName := by
    rw [HashedFile.originalName, HashedFile.originalName, h.key]
  rw [placeOne, placeOne, h.makesDir, hDir, hName]
  have hMade : Option.Rel (FileTree.Alike (SameContent w))
      (if w.makesDir other.scratchPath = true then s.createDirAll other.extensionDir else none)
      (if w.makesDir other.scratchPath = true then t.createDirAll other.extensionDir else none) := by
    split
    · exact hTree.createDirAll _
    · exact .none
  generalize (if w.makesDir other.scratchPath = true then s.createDirAll other.extensionDir else none) = madeS at hMade
  generalize (if w.makesDir other.scratchPath = true then t.createDirAll other.extensionDir else none) = madeT at hMade
  cases hMade with
  | none => exact ⟨hTree, rfl⟩
  | @some s t hTree =>
    dsimp only
    rw [h.moves, uniqueName_alike hTree]
    generalize uniqueName t other.extensionDir (sanitizeFilename other.originalName) = name
    have hWritten : Option.Rel (FileTree.Alike (SameContent w))
        (if w.moves other.scratchPath = true then s.write (other.extensionDir ++ [name]) file.scratchPath else none)
        (if w.moves other.scratchPath = true then t.write (other.extensionDir ++ [name]) other.scratchPath
          else none) := by
      split
      · exact hTree.write _ h.content
      · exact .none
    generalize (if w.moves other.scratchPath = true then s.write (other.extensionDir ++ [name]) file.scratchPath
      else none) = writtenS at hWritten
    generalize (if w.moves other.scratchPath = true then t.write (other.extensionDir ++ [name]) other.scratchPath
      else none) = writtenT at hWritten
    cases hWritten with
    | none => exact ⟨hTree, rfl⟩
    | some hTree =>
      dsimp only
      rw [h.commits, h.hash, h.extension, h.key, h.bucketAlias]
      split
      · exact ⟨hTree, rfl⟩
      · exact ⟨hTree, rfl⟩

theorem SameOutcome.placeFile {w : World} {p q : Placement} (hOutcome : SameOutcome w p q) {file other : HashedFile}
    (h : Interchangeable w file other) : SameOutcome w (placeFile w p file) (placeFile w q other) := by
  obtain ⟨hTree, hIndex, hRecords, hKeys, hPlaced, hSkipped, hFailed⟩ := hOutcome
  have hPair : file.pair = other.pair := by rw [HashedFile.pair, HashedFile.pair, h.bucketAlias, h.key]
  rw [Deduplicate.placeFile, Deduplicate.placeFile, h.hash, hIndex]
  split
  · rw [h.key, h.bucketAlias, hPair]
    exact ⟨hTree, rfl, congrArg (· ++ _) hRecords, congrArg (· ++ _) hKeys, hPlaced, by simp [hSkipped], hFailed⟩
  · obtain ⟨hTrees, hResult⟩ := placeOne_alike hTree q.index h
    generalize Deduplicate.placeOne w p.tree q.index file = resultP at hTrees hResult
    generalize Deduplicate.placeOne w q.tree q.index other = resultQ at hTrees hResult
    obtain ⟨treeP, resultP⟩ := resultP
    obtain ⟨treeQ, resultQ⟩ := resultQ
    obtain rfl : resultP = resultQ := hResult
    cases resultP with
    | error error => exact ⟨hTrees, rfl, hRecords, hKeys, hPlaced, hSkipped, by simp [hFailed]⟩
    | ok index =>
      rw [hPair]
      exact ⟨hTrees, rfl, hRecords, congrArg (· ++ _) hKeys, by simp [hPlaced], hSkipped, hFailed⟩

theorem sameOutcome_refl (w : World) (p : Placement) : SameOutcome w p p where
  tree := FileTree.Alike.refl (fun content => (rfl : SameContent w content content)) p.tree
  index := rfl
  records := rfl
  finishedKeys := rfl
  placed := rfl
  duplicatesSkipped := rfl
  failed := rfl

theorem sameOutcome_foldl {w : World} {files others : List HashedFile}
    (h : List.Forall₂ (Interchangeable w) files others) {p q : Placement} (hOutcome : SameOutcome w p q) :
    SameOutcome w (files.foldl (placeFile w) p) (others.foldl (placeFile w) q) := by
  induction h generalizing p q with
  | nil => exact hOutcome
  | cons hFirst _ ih => exact ih (hOutcome.placeFile hFirst)

/-! ## Files of one key -/

theorem placedBefore_antisymm {file other : HashedFile} (h : PlacedBefore file other) (h' : PlacedBefore other file) :
    file.originalKey = other.originalKey := by
  obtain hLess | ⟨hSame, hKey⟩ := h
  · obtain hLess' | ⟨hSame', -⟩ := h'
    · exact absurd hLess' (lt_asymm hLess)
    · exact absurd hSame' (ne_of_gt hLess)
  · obtain hLess' | ⟨-, hKey'⟩ := h'
    · exact absurd hSame (ne_of_gt hLess')
    · exact le_antisymm hKey hKey'

def KeyBefore (a b : Text) : Prop :=
  isUndatedKey a < isUndatedKey b ∨ isUndatedKey a = isUndatedKey b ∧ a ≤ b

theorem inOrder_keys {files others : List HashedFile} (h : others.Perm files) :
    (inOrder others).map HashedFile.originalKey = (inOrder files).map HashedFile.originalKey := by
  have hPerm : (inOrder others).Perm (inOrder files) :=
    (inOrder_perm others).trans (h.trans (inOrder_perm files).symm)
  have hAntisymm : ∀ a b, a ∈ (inOrder others).map HashedFile.originalKey →
      b ∈ (inOrder files).map HashedFile.originalKey → KeyBefore a b → KeyBefore b a → a = b := by
    intro a b hA hB hBefore hAfter
    obtain ⟨file, -, rfl⟩ := List.mem_map.mp hA
    obtain ⟨other, -, rfl⟩ := List.mem_map.mp hB
    exact placedBefore_antisymm hBefore hAfter
  exact List.Perm.eq_of_pairwise hAntisymm (List.pairwise_map.mpr (inOrder_pairwise others))
    (List.pairwise_map.mpr (inOrder_pairwise files)) (hPerm.map _)

theorem inOrder_interchangeable {w : World} {files others : List HashedFile} (hPerm : others.Perm files)
    (h : ∀ file ∈ files, ∀ other ∈ files, file.originalKey = other.originalKey → Interchangeable w file other) :
    List.Forall₂ (Interchangeable w) (inOrder others) (inOrder files) := by
  have hKeys := inOrder_keys hPerm
  have hLength : (inOrder others).length = (inOrder files).length := by
    rw [(inOrder_perm others).length_eq, (inOrder_perm files).length_eq, hPerm.length_eq]
  refine List.forall₂_iff_get.mpr ⟨hLength, fun i hi hi' => ?_⟩
  refine h _ ?_ _ ?_ ?_
  · exact hPerm.mem_iff.mp ((inOrder_perm others).mem_iff.mp (List.get_mem _ _))
  · exact (inOrder_perm files).mem_iff.mp (List.get_mem _ _)
  · have hAt := congrArg (·[i]?) hKeys
    simp only [List.getElem?_map, List.getElem?_eq_getElem hi, List.getElem?_eq_getElem hi', Option.map_some] at hAt
    exact Option.some.inj hAt

theorem find?_orderedInsert (file : HashedFile) (sorted : List HashedFile) :
    (sorted.orderedInsert PlacedBefore file).find? (fun other => other.originalKey == file.originalKey) = some file := by
  induction sorted with
  | nil => simp
  | cons first sorted ih =>
    rw [List.orderedInsert_cons]
    split
    · simp
    · rename_i hAfter
      have hNe : (first.originalKey == file.originalKey) = false := by
        rw [beq_eq_false_iff_ne]
        intro hKey
        exact hAfter (.inr ⟨by rw [hKey], le_of_eq hKey.symm⟩)
      rw [List.find?_cons, hNe]
      exact ih

theorem find?_inOrder (file : HashedFile) (files : List HashedFile) :
    (inOrder (file :: files)).find? (fun other => other.originalKey == file.originalKey) = some file :=
  find?_orderedInsert file (inOrder files)

/-! ## Files whose hashes are all known -/

def blankEntry : ContentIndexEntry := ⟨[], [], []⟩

def knowing (files : List HashedFile) : ContentIndex := files.map fun file => (file.contentHash, blankEntry)

def blankRecord (file : HashedFile) : MergeRecord :=
  ⟨file.originalKey, file.bucketAlias, [], [], [], file.contentHash⟩

theorem lookup_knowing {files : List HashedFile} {file : HashedFile} (h : file ∈ files) :
    (knowing files).lookup file.contentHash = some blankEntry := by
  induction files with
  | nil => cases h
  | cons first files ih =>
    rw [knowing, List.map_cons, List.lookup_cons]
    cases hSame : file.contentHash == first.contentHash with
    | true => rfl
    | false =>
      obtain rfl | hLater := List.mem_cons.mp h
      · rw [beq_self_eq_true] at hSame
        cases hSame
      · exact ih hLater

theorem records_foldl_known (w : World) {files : List HashedFile} {p : Placement}
    (h : ∀ file ∈ files, p.index.lookup file.contentHash = some blankEntry) :
    (files.foldl (placeFile w) p).records = p.records ++ files.map blankRecord := by
  induction files generalizing p with
  | nil => exact (List.append_nil _).symm
  | cons file files ih =>
    have hParts : p.records ++ (file :: files).map blankRecord = p.records ++ [blankRecord file] ++ files.map blankRecord :=
      List.append_cons _ _ _
    rw [hParts, List.foldl_cons, placeFile, h file List.mem_cons_self]
    exact ih fun other hOther => h other (List.mem_cons_of_mem _ hOther)

theorem records_of_known (w : World) (tree : FileTree Place) {files others : List HashedFile} (h : others.Perm files) :
    (placeAndReport w tree (knowing files) others).records = (inOrder others).map blankRecord := by
  refine (records_foldl_known w fun file hFile => ?_).trans (List.nil_append _)
  exact lookup_knowing (h.mem_iff.mp ((inOrder_perm others).mem_iff.mp hFile))

/-! ## When the order does not matter -/

theorem same_of_reproducible {w : World} {files : List HashedFile}
    (h : ∀ tree index others, others.Perm files →
      SameOutcome w (placeAndReport w tree index others) (placeAndReport w tree index files))
    {file other : HashedFile} (hFile : file ∈ files) (hOther : other ∈ files)
    (hKey : file.originalKey = other.originalKey) :
    file.bucketAlias = other.bucketAlias ∧ file.contentHash = other.contentHash := by
  have hFirst {first : HashedFile} (hMem : first ∈ files) :
      (((inOrder files).map blankRecord).find? fun record => record.duplicateKey == first.originalKey) =
        some (blankRecord first) := by
    have hPerm : (first :: files.erase first).Perm files := (List.perm_cons_erase hMem).symm
    have hRecords := (h .empty (knowing files) _ hPerm).records
    rw [records_of_known w .empty hPerm, records_of_known w .empty (List.Perm.refl files)] at hRecords
    rw [← hRecords, List.find?_map]
    exact congrArg (Option.map blankRecord) (find?_inOrder first _)
  have hSame := hFirst hFile
  rw [hKey, hFirst hOther] at hSame
  obtain ⟨-, hAlias, -, -, -, hHash⟩ := MergeRecord.mk.inj (Option.some.inj hSame)
  exact ⟨hAlias.symm, hHash.symm⟩

/-- Let the file system treat files of one key alike. Then the outcome is the same for every order of the files,
from every tree and index, if and only if files of one key have one bucket and one content. -/
theorem reproducible_iff {w : World} {files : List HashedFile} (hHashed : ∀ file ∈ files, file.HashedIn w)
    (hWrites : ∀ file ∈ files, ∀ other ∈ files, file.originalKey = other.originalKey → SameWrites w file other) :
    (∀ tree index others, others.Perm files →
        SameOutcome w (placeAndReport w tree index others) (placeAndReport w tree index files)) ↔
      ∀ file ∈ files, ∀ other ∈ files, file.originalKey = other.originalKey →
        file.bucketAlias = other.bucketAlias ∧ file.contentHash = other.contentHash := by
  constructor
  · intro h file hFile other hOther hKey
    exact same_of_reproducible h hFile hOther hKey
  · intro h tree index others hPerm
    refine sameOutcome_foldl (inOrder_interchangeable hPerm ?_) (sameOutcome_refl w _)
    intro file hFile other hOther hKey
    obtain ⟨hAlias, hHash⟩ := h file hFile other hOther hKey
    refine { hWrites file hFile other hOther hKey with
      key := hKey
      bucketAlias := hAlias
      extension := ?_
      hash := hHash
      content := ?_ }
    · rw [(hHashed file hFile).extension, (hHashed other hOther).extension, hKey]
    · rw [SameContent, (hHashed file hFile).hash, (hHashed other hOther).hash, hHash]

/-! ## Two buckets -/

/-- Every call succeeds, and the raw files have these contents. -/
def twoContents : World :=
  calmWorld fun place => if place = [0] then some (List.replicate 64 'a') else some (List.replicate 64 'b')

def photosFile (key : Text) : HashedFile where
  originalKey := key
  bucketAlias := "photos".toList
  scratchPath := [0]
  extension := "jpg".toList
  contentHash := List.replicate 64 'a'

def videosFile (key : Text) : HashedFile where
  originalKey := key
  bucketAlias := "videos".toList
  scratchPath := [1]
  extension := "jpg".toList
  contentHash := List.replicate 64 'b'

theorem hashedIn_twoContents {key other : Text} (hKey : extensionOf key = "jpg".toList)
    (hOther : extensionOf other = "jpg".toList) :
    ∀ file ∈ [photosFile key, videosFile other], file.HashedIn twoContents := by
  intro file hFile
  obtain rfl | hLast := List.mem_cons.mp hFile
  · exact ⟨rfl, hKey.symm⟩
  · obtain rfl := List.mem_singleton.mp hLast
    exact ⟨rfl, hOther.symm⟩

theorem reproducible_two_keys :
    (∀ file ∈ [photosFile "a.jpg".toList, videosFile "b.jpg".toList], file.HashedIn twoContents) ∧
      ∀ tree index others, others.Perm [photosFile "a.jpg".toList, videosFile "b.jpg".toList] →
        SameOutcome twoContents (placeAndReport twoContents tree index others)
          (placeAndReport twoContents tree index [photosFile "a.jpg".toList, videosFile "b.jpg".toList]) := by
  have hHashed : ∀ file ∈ [photosFile "a.jpg".toList, videosFile "b.jpg".toList], file.HashedIn twoContents :=
    hashedIn_twoContents (by decide +kernel) (by decide +kernel)
  refine ⟨hHashed, (reproducible_iff hHashed fun _ _ _ _ _ => ⟨rfl, rfl, rfl⟩).mpr ?_⟩
  decide +kernel

/-- Two buckets have different pictures under one key; which of them keeps the name depends on which came first. -/
theorem first_come_takes_name :
    (∀ file ∈ [photosFile "a.jpg".toList, videosFile "a.jpg".toList], file.HashedIn twoContents) ∧
      [videosFile "a.jpg".toList, photosFile "a.jpg".toList].Perm
        [photosFile "a.jpg".toList, videosFile "a.jpg".toList] ∧
        ¬ SameOutcome twoContents
          (placeAndReport twoContents .empty [] [videosFile "a.jpg".toList, photosFile "a.jpg".toList])
          (placeAndReport twoContents .empty [] [photosFile "a.jpg".toList, videosFile "a.jpg".toList]) := by
  refine ⟨hashedIn_twoContents (by decide +kernel) (by decide +kernel), .swap _ _ _, fun hSame => ?_⟩
  have hIndexes :
      (placeAndReport twoContents .empty [] [videosFile "a.jpg".toList, photosFile "a.jpg".toList]).index ≠
        (placeAndReport twoContents .empty [] [photosFile "a.jpg".toList, videosFile "a.jpg".toList]).index := by
    decide +kernel
  exact hIndexes hSame.index

end Pigeon.Deduplicate
