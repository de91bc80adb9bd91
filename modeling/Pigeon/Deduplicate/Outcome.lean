import Pigeon.Deduplicate.ContentIndex

/-! # What the placement pass leaves

After every file of the pass: the files sorted out so far are all accounted for, each hash has at most one kept
copy, the least of those that did not fail, and a raw file is removed as a duplicate only of a committed hash.
-/
namespace Pigeon.Deduplicate

open Library Pigeon.Core

set_option autoImplicit false

/-! ## The order -/

instance : Std.Total PlacedBefore where
  total a b := by
    obtain hLess | hEq | hGreater := lt_trichotomy (isUndatedKey a.originalKey) (isUndatedKey b.originalKey)
    · exact .inl (.inl hLess)
    · obtain hKey | hKey := le_total a.originalKey b.originalKey
      · exact .inl (.inr ⟨hEq, hKey⟩)
      · exact .inr (.inr ⟨hEq.symm, hKey⟩)
    · exact .inr (.inl hGreater)

instance : IsTrans HashedFile PlacedBefore where
  trans a b c hFirst hSecond := by
    obtain hLess | ⟨hEq, hKey⟩ := hFirst
    · obtain hLess' | ⟨hEq', -⟩ := hSecond
      · exact .inl (hLess.trans hLess')
      · exact .inl (hEq' ▸ hLess)
    · obtain hLess' | ⟨hEq', hKey'⟩ := hSecond
      · exact .inl (hEq ▸ hLess')
      · exact .inr ⟨hEq.trans hEq', hKey.trans hKey'⟩

theorem placedBefore_refl (file : HashedFile) : PlacedBefore file file := .inr ⟨rfl, le_rfl⟩

def inOrder (files : List HashedFile) : List HashedFile := files.insertionSort PlacedBefore

theorem inOrder_perm (files : List HashedFile) : (inOrder files).Perm files := List.perm_insertionSort _ _

theorem inOrder_pairwise (files : List HashedFile) : (inOrder files).Pairwise PlacedBefore :=
  List.pairwise_insertionSort _ _

/-! ## The state after some of the files -/

/-- The raw file went to a path that was free before the pass, and the index says where it is. -/
structure KeptAt (start : FileTree Place) (p : Placement) (file : HashedFile) (path : Path) : Prop where
  free : start.lookup path = none
  holds : p.tree.lookup path = some (.file file.scratchPath)
  recorded : ∃ name, path = file.extensionDir ++ [name] ∧
    p.index.lookup file.contentHash = some ⟨file.extension ++ '/' :: name, file.originalKey, file.bucketAlias⟩

/-- What holds when so many files of the pass are done. -/
structure PassCorrect (tree : FileTree Place) (index : ContentIndex) (files : List HashedFile) (p : Placement) :
    Prop where
  settled : p.settled.Perm files
  counts : p.placed.length + p.duplicatesSkipped.length + p.failed.length = files.length
  /-- Only hashes that were unknown are placed, each at most once. -/
  fresh : ∀ kept ∈ p.placed, index.lookup kept.contentHash = none
  once : (p.placed.map HashedFile.contentHash).Nodup
  /-- The kept copy is the least of its hash that did not fail. -/
  least : ∀ kept ∈ p.placed, ∀ other ∈ p.placed ++ p.duplicatesSkipped, other.contentHash = kept.contentHash →
    PlacedBefore kept other
  failedBefore : ∀ kept ∈ p.placed, ∀ other ∈ p.failed, other.contentHash = kept.contentHash → PlacedBefore other kept
  /-- The final paths are pairwise different, and nothing that was there is lost. -/
  paths : ∃ paths : List Path, List.Forall₂ (KeptAt tree p) p.placed paths ∧ paths.Nodup
  untouched : ∀ path node, tree.lookup path = some node → p.tree.lookup path = some node
  /-- A duplicate has a committed hash, of the index at the start or of a kept copy. -/
  committed : ∀ other ∈ p.duplicatesSkipped, (p.index.lookup other.contentHash).isSome = true ∧
    ((index.lookup other.contentHash).isSome = true ∨ ∃ kept ∈ p.placed, kept.contentHash = other.contentHash)
  /-- The index knows what it knew, and the kept copies. -/
  known : ∀ hash, (p.index.lookup hash).isSome = true ↔
    (index.lookup hash).isSome = true ∨ ∃ kept ∈ p.placed, kept.contentHash = hash

theorem KeptAt.mono {start : FileTree Place} {p q : Placement} {file : HashedFile} {path : Path}
    (h : KeptAt start p file path) (hTree : ∀ node, p.tree.lookup path = some node → q.tree.lookup path = some node)
    (hIndex : q.index.lookup file.contentHash = p.index.lookup file.contentHash) : KeptAt start q file path := by
  obtain ⟨name, hPath, hEntry⟩ := h.recorded
  exact ⟨h.free, hTree _ h.holds, name, hPath, hIndex.trans hEntry⟩

theorem not_mem_of_free {start : FileTree Place} {p : Placement} {files : List HashedFile} {paths : List Path}
    (hPaths : List.Forall₂ (KeptAt start p) files paths) {path : Path} (hFree : p.tree.lookup path = none) :
    path ∉ paths := by
  intro hMem
  obtain ⟨i, hi, hPath⟩ := List.mem_iff_getElem.mp hMem
  have hAt := (List.forall₂_iff_get.mp hPaths).2 i (by rw [hPaths.length_eq]; exact hi) hi
  have hHeld := hAt.holds
  rw [List.get_eq_getElem, List.get_eq_getElem, hPath, hFree] at hHeld
  cases hHeld

theorem passCorrect_start (tree : FileTree Place) (index : ContentIndex) :
    PassCorrect tree index [] (.start tree index) where
  settled := .nil
  counts := rfl
  fresh kept hKept := by cases hKept
  once := .nil
  least kept hKept := by cases hKept
  failedBefore kept hKept := by cases hKept
  paths := ⟨[], .nil, .nil⟩
  untouched path node hNode := hNode
  committed other hOther := by cases hOther
  known hash := by
    constructor
    · exact .inl
    · rintro (hKnown | ⟨kept, hKept, -⟩)
      · exact hKnown
      · cases hKept

namespace PassCorrect

variable {tree : FileTree Place} {index : ContentIndex} {files : List HashedFile} {p : Placement}

theorem mem_of_placed (h : PassCorrect tree index files p) {file : HashedFile} (hFile : file ∈ p.placed) :
    file ∈ files :=
  h.settled.mem_iff.mp (List.mem_append_left _ (List.mem_append_left _ hFile))

theorem mem_of_failed (h : PassCorrect tree index files p) {file : HashedFile} (hFile : file ∈ p.failed) :
    file ∈ files :=
  h.settled.mem_iff.mp (List.mem_append_right _ hFile)

theorem hash_ne_of_unknown (h : PassCorrect tree index files p) {file : HashedFile}
    (hFresh : p.index.lookup file.contentHash = none) {other : HashedFile}
    (hOther : other ∈ p.placed ++ p.duplicatesSkipped) : other.contentHash ≠ file.contentHash := by
  intro hSame
  have hKnown : (p.index.lookup other.contentHash).isSome = true := by
    obtain hPlaced | hSkipped := List.mem_append.mp hOther
    · exact (h.known _).mpr (.inr ⟨other, hPlaced, rfl⟩)
    · exact (h.committed other hSkipped).1
  rw [hSame, hFresh] at hKnown
  cases hKnown

theorem start_unknown (h : PassCorrect tree index files p) {hash : Text} (hFresh : p.index.lookup hash = none) :
    index.lookup hash = none := by
  have hNot : ¬ (p.index.lookup hash).isSome = true := by
    rw [hFresh]
    exact Bool.false_ne_true
  rw [h.known, not_or, Option.not_isSome_iff_eq_none] at hNot
  exact hNot.1

theorem duplicate {file : HashedFile} {kept : ContentIndexEntry} (h : PassCorrect tree index files p)
    (hOrder : ∀ before ∈ files, PlacedBefore before file) (hKept : p.index.lookup file.contentHash = some kept)
    (records : List MergeRecord) (finishedKeys : List (Text × Text)) :
    PassCorrect tree index (files ++ [file])
      { p with records := records, duplicatesSkipped := p.duplicatesSkipped ++ [file], finishedKeys := finishedKeys } where
  settled := by
    refine List.Perm.trans ?_ (h.settled.append_right [file])
    simp only [Placement.settled, List.append_assoc]
    have hSwap (rest : List HashedFile) : ([file] ++ rest).Perm (rest ++ [file]) := List.perm_append_comm
    exact ((hSwap _).append_left _).append_left _
  counts := by
    have hCounts := h.counts
    simp only [List.length_append, List.length_singleton]
    omega
  fresh := h.fresh
  once := h.once
  least kept hKept other hOther hHash := by
    rw [← List.append_assoc] at hOther
    obtain hOld | hNew := List.mem_append.mp hOther
    · exact h.least kept hKept other hOld hHash
    · rw [List.mem_singleton.mp hNew]
      exact hOrder kept (h.mem_of_placed hKept)
  failedBefore := h.failedBefore
  paths := by
    obtain ⟨paths, hPaths, hApart⟩ := h.paths
    exact ⟨paths, hPaths.imp fun _ _ hAt => ⟨hAt.free, hAt.holds, hAt.recorded⟩, hApart⟩
  untouched := h.untouched
  committed other hOther := by
    obtain hOld | hNew := List.mem_append.mp hOther
    · exact h.committed other hOld
    · rw [List.mem_singleton.mp hNew]
      have hKnown : (p.index.lookup file.contentHash).isSome = true := Option.isSome_iff_exists.mpr ⟨kept, hKept⟩
      exact ⟨hKnown, (h.known _).mp hKnown⟩
  known := h.known

theorem failed {file : HashedFile} {next : FileTree Place} (h : PassCorrect tree index files p)
    (hFresh : p.index.lookup file.contentHash = none)
    (hKeeps : ∀ path node, p.tree.lookup path = some node → next.lookup path = some node) :
    PassCorrect tree index (files ++ [file]) { p with tree := next, failed := p.failed ++ [file] } where
  settled := by
    refine List.Perm.trans ?_ (h.settled.append_right [file])
    simp only [Placement.settled, List.append_assoc]
    exact List.Perm.refl _
  counts := by
    have hCounts := h.counts
    simp only [List.length_append, List.length_singleton]
    omega
  fresh := h.fresh
  once := h.once
  least := h.least
  failedBefore kept hKept other hOther hHash := by
    obtain hOld | hNew := List.mem_append.mp hOther
    · exact h.failedBefore kept hKept other hOld hHash
    · rw [List.mem_singleton.mp hNew] at hHash
      exact absurd hHash.symm (h.hash_ne_of_unknown hFresh (List.mem_append_left _ hKept))
  paths := by
    obtain ⟨paths, hPaths, hApart⟩ := h.paths
    exact ⟨paths, hPaths.imp fun _ _ hAt => ⟨hAt.free, hKeeps _ _ hAt.holds, hAt.recorded⟩, hApart⟩
  untouched path node hNode := hKeeps _ _ (h.untouched path node hNode)
  committed := h.committed
  known := h.known

theorem placed {file : HashedFile} {next : FileTree Place} {name : Text} (h : PassCorrect tree index files p)
    (hOrder : ∀ before ∈ files, PlacedBefore before file) (hFresh : p.index.lookup file.contentHash = none)
    (hFree : p.tree.lookup (file.extensionDir ++ [name]) = none)
    (hHolds : next.lookup (file.extensionDir ++ [name]) = some (.file file.scratchPath))
    (hKeeps : ∀ path node, p.tree.lookup path = some node → next.lookup path = some node)
    (finishedKeys : List (Text × Text)) :
    PassCorrect tree index (files ++ [file])
      { p with
        tree := next
        index := (file.contentHash, ⟨file.extension ++ '/' :: name, file.originalKey, file.bucketAlias⟩) :: p.index
        placed := p.placed ++ [file]
        finishedKeys := finishedKeys } where
  settled := by
    refine List.Perm.trans ?_ (h.settled.append_right [file])
    simp only [Placement.settled, List.append_assoc]
    apply List.Perm.append_left _
    rw [← List.append_assoc p.duplicatesSkipped]
    exact List.perm_append_comm
  counts := by
    have hCounts := h.counts
    simp only [List.length_append, List.length_singleton]
    omega
  fresh kept hKept := by
    obtain hOld | hNew := List.mem_append.mp hKept
    · exact h.fresh kept hOld
    · rw [List.mem_singleton.mp hNew]
      exact h.start_unknown hFresh
  once := by
    rw [List.map_append, List.map_singleton, ← List.concat_eq_append]
    apply h.once.concat
    intro hMem
    obtain ⟨other, hOther, hSame⟩ := List.mem_map.mp hMem
    exact h.hash_ne_of_unknown hFresh (List.mem_append_left _ hOther) hSame
  least kept hKept other hOther hHash := by
    have hOther : other ∈ p.placed ++ p.duplicatesSkipped ∨ other = file := by
      simp only [List.mem_append, List.mem_singleton] at hOther ⊢
      tauto
    obtain hOldKept | hNewKept := List.mem_append.mp hKept
    · obtain hOld | rfl := hOther
      · exact h.least kept hOldKept other hOld hHash
      · exact hOrder kept (h.mem_of_placed hOldKept)
    · obtain rfl := List.mem_singleton.mp hNewKept
      obtain hOld | rfl := hOther
      · exact absurd hHash (h.hash_ne_of_unknown hFresh hOld)
      · exact placedBefore_refl other
  failedBefore kept hKept other hOther hHash := by
    obtain hOldKept | hNewKept := List.mem_append.mp hKept
    · exact h.failedBefore kept hOldKept other hOther hHash
    · rw [List.mem_singleton.mp hNewKept]
      exact hOrder other (h.mem_of_failed hOther)
  paths := by
    obtain ⟨paths, hPaths, hApart⟩ := h.paths
    refine ⟨paths ++ [file.extensionDir ++ [name]], List.rel_append ?_ (.cons ?_ .nil), ?_⟩
    · refine List.forall₂_iff_zip.mpr ⟨hPaths.length_eq, fun {kept path} hPair => ?_⟩
      refine ((List.forall₂_iff_zip.mp hPaths).2 hPair).mono (hKeeps path) ?_
      have hNe := h.hash_ne_of_unknown hFresh (List.mem_append_left _ (List.of_mem_zip hPair).1)
      rw [List.lookup_cons, beq_eq_false_iff_ne.mpr hNe]
    · refine ⟨?_, hHolds, name, rfl, List.lookup_cons_self⟩
      rw [Option.eq_none_iff_forall_ne_some]
      intro node hNode
      rw [h.untouched _ _ hNode] at hFree
      cases hFree
    · rw [← List.concat_eq_append]
      exact hApart.concat (not_mem_of_free hPaths hFree)
  untouched path node hNode := hKeeps _ _ (h.untouched path node hNode)
  committed other hOther := by
    obtain ⟨hKnown, hFrom⟩ := h.committed other hOther
    refine ⟨lookup_cons_isSome _ hKnown, hFrom.imp_right ?_⟩
    rintro ⟨kept, hKept, hHash⟩
    exact ⟨kept, List.mem_append_left _ hKept, hHash⟩
  known hash := by
    rw [List.lookup_cons]
    cases hSame : hash == file.contentHash with
    | true =>
      refine ⟨fun _ => .inr ⟨file, List.mem_append_right _ List.mem_cons_self, (eq_of_beq hSame).symm⟩, fun _ => rfl⟩
    | false =>
      have hNe : file.contentHash ≠ hash := fun h => (beq_eq_false_iff_ne.mp hSame) h.symm
      simp only [h.known, List.mem_append, List.mem_singleton, or_and_right, exists_or, exists_eq_left, hNe, or_false]

theorem step {w : World} {file : HashedFile} {next : Placement} (hFile : PlacesFile w p file next)
    (h : PassCorrect tree index files p) (hOrder : ∀ before ∈ files, PlacedBefore before file) :
    PassCorrect tree index (files ++ [file]) next := by
  have hKeeps (path : Path) (node : Node Place) (hNode : p.tree.lookup path = some node) :
      (placeOne w p.tree p.index file).1.lookup path = some node := placeOne_tree_keeps w p.index file hNode
  cases hFile with
  | duplicate hKept record => exact h.duplicate hOrder hKept _ _
  | failed hFresh hPlace =>
    rw [hPlace] at hKeeps
    exact h.failed hFresh hKeeps
  | placed hFresh hPlace =>
    rw [hPlace] at hKeeps
    obtain ⟨name, hFree, hHolds, rfl⟩ := placeOne_placed hPlace
    exact h.placed hOrder hFresh hFree hHolds hKeeps _

end PassCorrect

theorem passCorrect_foldl (w : World) (tree : FileTree Place) (index : ContentIndex) {files : List HashedFile}
    (hOrder : files.Pairwise PlacedBefore) :
    PassCorrect tree index files (files.foldl (placeFile w) (.start tree index)) := by
  induction files using List.reverseRecOn with
  | nil => exact passCorrect_start tree index
  | append_singleton files file ih =>
    obtain ⟨hFiles, -, hLast⟩ := List.pairwise_append.mp hOrder
    rw [List.foldl_append, List.foldl_cons, List.foldl_nil]
    exact .step (placeFile_cases w _ file) (ih hFiles)
      fun before hBefore => hLast before hBefore file List.mem_cons_self

/-- For every list of files, every index and tree at the start and whatever fails: the pass is correct after each
of its files, and so at its end. -/
theorem placeAndReport_correct (w : World) (tree : FileTree Place) (index : ContentIndex) (files : List HashedFile) :
    (∀ n, PassCorrect tree index ((inOrder files).take n)
      (((inOrder files).take n).foldl (placeFile w) (.start tree index))) ∧
      PassCorrect tree index files (placeAndReport w tree index files) := by
  have hPrefix (n : Nat) : PassCorrect tree index ((inOrder files).take n)
      (((inOrder files).take n).foldl (placeFile w) (.start tree index)) :=
    passCorrect_foldl w tree index ((inOrder_pairwise files).sublist (List.take_sublist n _))
  refine ⟨hPrefix, ?_⟩
  have hAll := passCorrect_foldl w tree index (inOrder_pairwise files)
  refine { hAll with
    settled := hAll.settled.trans (inOrder_perm files)
    counts := hAll.counts.trans (inOrder_perm files).length_eq }

end Pigeon.Deduplicate
