import Pigeon.Library.Rows
import Pigeon.Deduplicate.Placement

/-! # The content index and its file

`.content-hashes` gets a row for every hash that is committed. Reading it back, a line without a tab is one of an
older build, with a blank between hash and path; of several lines with one hash the last counts.
-/
namespace Pigeon.Deduplicate

open Library Pigeon.Core

set_option autoImplicit false

/-- The path with the key and the alias, each empty where it is missing. -/
def readIndexFields (fields : Text) : ContentIndexEntry :=
  let (relativePath, rest) := (Text.splitOnce ['\t'] fields).getD (fields, [])
  let (originalKey, sourceBucketAlias) := (Text.splitOnce ['\t'] rest).getD (rest, [])
  ⟨relativePath, originalKey, sourceBucketAlias⟩

def readIndexLine (line : Text) : Option (Text × ContentIndexEntry) :=
  match Text.splitOnce ['\t'] line with
  | some (hash, fields) => some (hash, readIndexFields fields)
  | none => (Text.splitOnce [' '] line).map fun (hash, relativePath) => (hash, ⟨relativePath, [], []⟩)

/-- The entries that `load` gives; nothing stands for a missing file. -/
def loadIndex : Option Text → ContentIndex
  | none => []
  | some contents => ((Text.lines contents).filterMap readIndexLine).reverse

def indexRow (hash : Text) (entry : ContentIndexEntry) : Text :=
  hash ++ '\t' :: (entry.relativePath ++ '\t' :: (entry.originalKey ++ '\t' :: entry.sourceBucketAlias))

structure IndexStore where
  file : Option Text
  entries : ContentIndex
deriving DecidableEq

namespace IndexStore

def load (file : Option Text) : IndexStore := ⟨file, loadIndex file⟩

/-- `commit_with_key_and_bucket`, and whether it succeeds; the entry is known only after its row is written. -/
def commit (store : IndexStore) (hash : Text) (entry : ContentIndexEntry) (outcome : Text.AppendOutcome) :
    IndexStore × Bool :=
  let file := some (Text.appendLine (store.file.getD []) (indexRow hash entry) outcome)
  match outcome with
  | .ok => (⟨file, (hash, entry) :: store.entries⟩, true)
  | .failed _ => ({ store with file := file }, false)

/-- What the file gives is what is known, hash by hash. -/
def Agrees (store : IndexStore) : Prop :=
  ∀ hash, List.lookup hash (loadIndex store.file) = List.lookup hash store.entries

end IndexStore

/-- What `place_one` commits. -/
structure Commit where
  hash : Text
  entry : ContentIndexEntry
  hash_digits : ∀ c ∈ hash, c.isDigit = true ∨ c ∈ "abcdef".toList

namespace Commit

def row (commit : Commit) : Text := indexRow commit.hash commit.entry

def pair (commit : Commit) : Text × ContentIndexEntry := (commit.hash, commit.entry)

/-- The fields stay apart and within their row, and the row keeps its end. -/
structure Rowable (commit : Commit) : Prop where
  path_newline : '\n' ∉ commit.entry.relativePath
  path_tab : '\t' ∉ commit.entry.relativePath
  key_newline : '\n' ∉ commit.entry.originalKey
  key_tab : '\t' ∉ commit.entry.originalKey
  alias_newline : '\n' ∉ commit.entry.sourceBucketAlias
  alias_cr : commit.entry.sourceBucketAlias.getLast? ≠ some '\r'

theorem not_mem_hash (commit : Commit) {c : Char} (hDigit : c.isDigit = false) (hLetter : c ∉ "abcdef".toList) :
    c ∉ commit.hash :=
  Text.not_mem_of_digits commit.hash_digits hDigit hLetter

end Commit

def committed (commits : List Commit) : IndexStore :=
  commits.foldl (fun store commit => (store.commit commit.hash commit.entry .ok).1) (.load none)

/-! ## What a line gives -/

theorem splitOnce_getD (fields : Text) :
    '\t' ∉ ((Text.splitOnce ['\t'] fields).getD (fields, [])).1 ∧
      ((Text.splitOnce ['\t'] fields).getD (fields, [])).1 ⊆ fields ∧
        ((Text.splitOnce ['\t'] fields).getD (fields, [])).2 ⊆ fields := by
  cases hSplit : Text.splitOnce ['\t'] fields with
  | none => exact ⟨Text.splitOnce_eq_none.mp hSplit, List.Subset.refl _, List.nil_subset _⟩
  | some pieces =>
    obtain ⟨rfl, hTab⟩ := Text.splitOnce_eq_some.mp hSplit
    exact ⟨hTab, List.subset_append_left _ _,
      fun c hMem => List.mem_append_right _ (List.mem_cons_of_mem _ hMem)⟩

/-- Whatever a line holds, what is read from it has no tab in path and key, and only characters of the line. -/
structure ReadFrom (line : Text) (entry : ContentIndexEntry) : Prop where
  path_tab : '\t' ∉ entry.relativePath
  key_tab : '\t' ∉ entry.originalKey
  path : entry.relativePath ⊆ line
  key : entry.originalKey ⊆ line
  bucketAlias : entry.sourceBucketAlias ⊆ line

theorem readIndexFields_readFrom (fields : Text) : ReadFrom fields (readIndexFields fields) := by
  obtain ⟨hPathTab, hPath, hRest⟩ := splitOnce_getD fields
  obtain ⟨hKeyTab, hKey, hAlias⟩ := splitOnce_getD ((Text.splitOnce ['\t'] fields).getD (fields, [])).2
  exact ⟨hPathTab, hKeyTab, hPath, List.Subset.trans hKey hRest, List.Subset.trans hAlias hRest⟩

theorem readIndexLine_readFrom {line hash : Text} {entry : ContentIndexEntry}
    (h : readIndexLine line = some (hash, entry)) : ReadFrom line entry := by
  rw [readIndexLine] at h
  split at h
  · rename_i fields hSplit
    cases h
    obtain ⟨rfl, -⟩ := Text.splitOnce_eq_some.mp hSplit
    have hFields : fields ⊆ hash ++ '\t' :: fields :=
      fun c hMem => List.mem_append_right _ (List.mem_cons_of_mem _ hMem)
    obtain ⟨hPathTab, hKeyTab, hPath, hKey, hAlias⟩ := readIndexFields_readFrom fields
    exact ⟨hPathTab, hKeyTab, List.Subset.trans hPath hFields, List.Subset.trans hKey hFields,
      List.Subset.trans hAlias hFields⟩
  · rename_i hNone
    obtain ⟨⟨_, relativePath⟩, hBlank, hPair⟩ := Option.map_eq_some_iff.mp h
    cases hPair
    obtain ⟨rfl, -⟩ := Text.splitOnce_eq_some.mp hBlank
    have hPath : relativePath ⊆ hash ++ ' ' :: relativePath :=
      fun c hMem => List.mem_append_right _ (List.mem_cons_of_mem _ hMem)
    exact ⟨fun hTab => Text.splitOnce_eq_none.mp hNone (hPath hTab), List.not_mem_nil, hPath, List.nil_subset _,
      List.nil_subset _⟩

theorem mem_of_lookup {index : ContentIndex} {hash : Text} {entry : ContentIndexEntry}
    (h : index.lookup hash = some entry) : (hash, entry) ∈ index := by
  obtain ⟨before, after, rfl, -⟩ := List.lookup_eq_some_iff.mp h
  exact List.mem_append_right _ List.mem_cons_self

theorem mem_loadIndex {file : Option Text} {pair : Text × ContentIndexEntry} (h : pair ∈ loadIndex file) :
    ∃ line ∈ Text.lines (file.getD []), readIndexLine line = some pair := by
  cases file with
  | none => cases h
  | some contents => exact List.mem_filterMap.mp (List.mem_reverse.mp h)

theorem loadIndex_newline {file : Option Text} {hash : Text} {entry : ContentIndexEntry}
    (h : (hash, entry) ∈ loadIndex file) :
    '\n' ∉ entry.relativePath ∧ '\n' ∉ entry.originalKey ∧ '\n' ∉ entry.sourceBucketAlias := by
  obtain ⟨line, hLine, hRead⟩ := mem_loadIndex h
  have hPlain := Text.not_mem_of_mem_lines hLine
  have hFrom := readIndexLine_readFrom hRead
  exact ⟨fun hMem => hPlain (hFrom.path hMem), fun hMem => hPlain (hFrom.key hMem),
    fun hMem => hPlain (hFrom.bucketAlias hMem)⟩

theorem loadIndex_tab {file : Option Text} {hash : Text} {entry : ContentIndexEntry}
    (h : (hash, entry) ∈ loadIndex file) : '\t' ∉ entry.relativePath ∧ '\t' ∉ entry.originalKey := by
  obtain ⟨line, -, hRead⟩ := mem_loadIndex h
  exact ⟨(readIndexLine_readFrom hRead).path_tab, (readIndexLine_readFrom hRead).key_tab⟩

/-! ## Rows -/

theorem Commit.newline_mem_row (commit : Commit) :
    '\n' ∈ commit.row ↔ '\n' ∈ commit.entry.relativePath ∨ '\n' ∈ commit.entry.originalKey ∨
      '\n' ∈ commit.entry.sourceBucketAlias := by
  have hHash : '\n' ∉ commit.hash := commit.not_mem_hash (by decide) (by decide)
  simp [Commit.row, indexRow, hHash]

theorem readIndexLine_row (commit : Commit) (bucketAlias : Text) (hPath : '\t' ∉ commit.entry.relativePath)
    (hKey : '\t' ∉ commit.entry.originalKey) :
    readIndexLine (indexRow commit.hash { commit.entry with sourceBucketAlias := bucketAlias }) =
      some (commit.hash, { commit.entry with sourceBucketAlias := bucketAlias }) := by
  have hHash : '\t' ∉ commit.hash := commit.not_mem_hash (by decide) (by decide)
  rw [readIndexLine, indexRow, Text.splitOnce_eq_some.mpr ⟨rfl, hHash⟩]
  dsimp only
  rw [readIndexFields, Text.splitOnce_eq_some.mpr ⟨rfl, hPath⟩, Option.getD_some]
  dsimp only
  rw [Text.splitOnce_eq_some.mpr ⟨rfl, hKey⟩, Option.getD_some]

theorem stripCr_row (commit : Commit) :
    Text.stripCr commit.row =
      indexRow commit.hash
        { commit.entry with sourceBucketAlias := Text.stripCr commit.entry.sourceBucketAlias } := by
  have hShape (bucketAlias : Text) :
      indexRow commit.hash { commit.entry with sourceBucketAlias := bucketAlias } =
        (commit.hash ++ '\t' :: (commit.entry.relativePath ++ '\t' :: commit.entry.originalKey)) ++
          '\t' :: bucketAlias := by
    simp [indexRow]
  rw [hShape, ← Text.stripCr_append_cons _ (by decide), ← hShape]
  rfl

theorem committed_entries (commits : List Commit) : (committed commits).entries = (commits.map Commit.pair).reverse := by
  have hFold (store : IndexStore) :
      (commits.foldl (fun store commit => (store.commit commit.hash commit.entry .ok).1) store).entries =
        (commits.map Commit.pair).reverse ++ store.entries := by
    induction commits generalizing store with
    | nil => rfl
    | cons commit commits ih =>
      rw [List.foldl_cons, ih, List.map_cons, List.reverse_cons, List.append_assoc]
      rfl
  rw [committed, hFold]
  exact List.append_nil _

theorem committed_file (commits : List Commit) :
    (committed commits).file.getD [] = Text.unlines (commits.map Commit.row) := by
  have hFold (store : IndexStore) :
      (commits.foldl (fun store commit => (store.commit commit.hash commit.entry .ok).1) store).file.getD [] =
        store.file.getD [] ++ Text.unlines (commits.map Commit.row) := by
    induction commits generalizing store with
    | nil => exact (List.append_nil _).symm
    | cons commit commits ih =>
      rw [List.foldl_cons, ih, List.map_cons, Text.unlines_cons]
      simp [IndexStore.commit, Text.appendLine, Commit.row]
  rw [committed, hFold]
  rfl

theorem loadIndex_eq (file : Option Text) :
    loadIndex file = ((Text.lines (file.getD [])).filterMap readIndexLine).reverse := by
  cases file with
  | none => rw [Option.getD_none, Text.lines_nil]; rfl
  | some contents => rfl

/-! ## The file agrees with what is known -/

theorem agrees_of_rowable {commits : List Commit} (h : ∀ commit ∈ commits, commit.Rowable) :
    (committed commits).Agrees := by
  have hRows : ∀ row ∈ commits.map Commit.row, '\n' ∉ row := by
    intro row hRow
    obtain ⟨commit, hCommit, rfl⟩ := List.mem_map.mp hRow
    have hFields := h commit hCommit
    rw [Commit.newline_mem_row]
    simp [hFields.path_newline, hFields.key_newline, hFields.alias_newline]
  have hRead : ∀ commit ∈ commits, readIndexLine (Text.stripCr commit.row) = some commit.pair := by
    intro commit hCommit
    have hFields := h commit hCommit
    rw [stripCr_row, readIndexLine_row commit _ hFields.path_tab hFields.key_tab,
      Text.stripCr_of_getLast_ne _ hFields.alias_cr]
    rfl
  have hLoaded : loadIndex (committed commits).file = (committed commits).entries := by
    rw [loadIndex_eq, committed_file, committed_entries, Text.lines_unlines_of_not_mem hRows, List.map_map,
      List.filterMap_map, ← List.filterMap_eq_map]
    exact congrArg List.reverse (List.filterMap_congr hRead)
  intro hash
  rw [hLoaded]

theorem rowable_of_agrees {commits : List Commit} {last : Commit} (h : (committed (commits ++ [last])).Agrees) :
    last.Rowable := by
  have hKnown : List.lookup last.hash (loadIndex (committed (commits ++ [last])).file) = some last.entry := by
    rw [h, committed_entries, List.map_append, List.reverse_append]
    exact List.lookup_cons_self
  obtain ⟨hPathNewline, hKeyNewline, hAliasNewline⟩ := loadIndex_newline (mem_of_lookup hKnown)
  obtain ⟨hPathTab, hKeyTab⟩ := loadIndex_tab (mem_of_lookup hKnown)
  refine ⟨hPathNewline, hPathTab, hKeyNewline, hKeyTab, hAliasNewline, ?_⟩
  have hRow : '\n' ∉ last.row := by
    rw [Commit.newline_mem_row]
    simp [hPathNewline, hKeyNewline, hAliasNewline]
  -- the last line is the one of the commit, and the last line counts
  rw [loadIndex_eq, committed_file, Text.lines_unlines, List.map_append, List.flatMap_append, List.filterMap_append,
    List.map_singleton, List.flatMap_singleton, List.splitOn_eq_singleton hRow, List.map_singleton,
    stripCr_row, List.filterMap_cons, readIndexLine_row last _ hPathTab hKeyTab, List.reverse_append] at hKnown
  have hEntry := Option.some.inj (List.lookup_cons_self.symm.trans hKnown)
  exact Text.stripCr_eq_self_iff.mp (congrArg ContentIndexEntry.sourceBucketAlias hEntry)

/-- Whatever is committed: the file agrees with what is known after every commit if and only if no field of a
commit breaks its row. -/
theorem agrees_iff (commits : List Commit) :
    (∀ before, before <+: commits → (committed before).Agrees) ↔ ∀ commit ∈ commits, commit.Rowable := by
  constructor
  · intro hAgrees commit hCommit
    obtain ⟨before, after, rfl⟩ := List.append_of_mem hCommit
    have hUpTo : (committed (before ++ [commit])).Agrees := hAgrees _ ⟨after, by rw [List.append_assoc]; rfl⟩
    exact rowable_of_agrees hUpTo
  · intro hRowable before hBefore
    exact agrees_of_rowable fun commit hCommit => hRowable commit (hBefore.subset hCommit)

/-! ## A name with a line feed -/

def calmWorld (sha256File : Place → Option Text) : World where
  buckets := []
  spaceToDownload _ := none
  spaceToExpand _ := none
  allocates _ := true
  pulls _ _ _ := true
  archive _ := .panics
  sha256File := sha256File
  makesDir _ := true
  moves _ := true
  commits _ := true

/-- The name of a picture with a line feed, and with the hash of other content behind it. -/
def brokenKey : Text := 'x' :: '\n' :: (List.replicate 64 'b' ++ "\t.jpg".toList)

def brokenFile : HashedFile where
  originalKey := brokenKey
  bucketAlias := "photos".toList
  scratchPath := [0]
  extension := "jpg".toList
  contentHash := List.replicate 64 'a'

def brokenCommit : Commit where
  hash := List.replicate 64 'a'
  entry := ⟨"jpg/".toList ++ brokenKey, brokenKey, "photos".toList⟩
  hash_digits c hMem := .inr (List.eq_of_mem_replicate hMem ▸ by decide)

/-- After the commit that places the picture, the file knows a hash that was never committed. -/
theorem broken_row_makes_hash_known :
    (placeOne (calmWorld fun _ => none) .empty [] brokenFile).2 = .ok [brokenCommit.pair] ∧
      ¬ (committed [brokenCommit]).Agrees ∧
        List.lookup (List.replicate 64 'b') (committed [brokenCommit]).entries = none ∧
          (List.lookup (List.replicate 64 'b') (loadIndex (committed [brokenCommit]).file)).isSome = true := by
  have hPlaced : (placeOne (calmWorld fun _ => none) .empty [] brokenFile).2 = .ok [brokenCommit.pair] := by
    decide +kernel
  have hUnknown : List.lookup (List.replicate 64 'b') (committed [brokenCommit]).entries = none := by
    decide +kernel
  have hKnown : (List.lookup (List.replicate 64 'b') (loadIndex (committed [brokenCommit]).file)).isSome = true := by
    decide +kernel
  refine ⟨hPlaced, fun hAgrees => ?_, hUnknown, hKnown⟩
  rw [hAgrees, hUnknown] at hKnown
  cases hKnown

end Pigeon.Deduplicate
