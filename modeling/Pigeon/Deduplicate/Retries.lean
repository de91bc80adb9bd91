import Pigeon.Deduplicate.Reproducible

/-! # Runs on one result directory

A file is placed in two steps, the move and the row of the index, and each run reads the index anew. A file that
was moved without its row is not known to the next run, which places its content again.
-/
namespace Pigeon.Deduplicate

open Library Pigeon.Core

set_option autoImplicit false

/-- How the file system answers when a file is placed. -/
structure Answers where
  makesDir : Bool
  moves : Bool
  append : Text.AppendOutcome
deriving DecidableEq

/-- The result tree, a file of it given by the hash of its content, and the index. -/
structure Store where
  tree : FileTree Text
  index : IndexStore

namespace Store

def fresh : Store := ⟨.empty, .load none⟩

/-- `place_one`, with the file of the index. -/
def placeOne (s : Store) (file : HashedFile) (answers : Answers) : Store × Except PlaceError Unit :=
  match if answers.makesDir then s.tree.createDirAll file.extensionDir else none with
  | none => (s, .error .createDir)
  | some tree =>
    let name := uniqueName tree file.extensionDir (sanitizeFilename file.originalName)
    match if answers.moves then tree.write (file.extensionDir ++ [name]) file.contentHash else none with
    | none => ({ s with tree := tree }, .error .move)
    | some tree =>
      match s.index.commit file.contentHash ⟨file.extension ++ '/' :: name, file.originalKey, file.bucketAlias⟩
        answers.append with
      | (index, true) => (⟨tree, index⟩, .ok ())
      | (index, false) => (⟨tree, index⟩, .error .commit)

end Store

/-- A file whose turn it is in `place_and_report`. -/
structure Turn where
  file : HashedFile
  answers : Answers
  hash_digits : ∀ c ∈ file.contentHash, c.isDigit = true ∨ c ∈ "abcdef".toList

/-- A run starts by reading the index, and then takes file after file; it may end before its last one. -/
inductive Event where
  | start
  | place (turn : Turn)

namespace Store

def step (s : Store) : Event → Store
  | .start => { s with index := .load s.index.file }
  | .place turn =>
    match s.index.entries.lookup turn.file.contentHash with
    | some _ => s
    | none => (s.placeOne turn.file turn.answers).1

def after (history : List Event) : Store := history.foldl step fresh

/-! ## One file -/

def MakesDir (s : Store) (turn : Turn) : Prop :=
  turn.answers.makesDir = true ∧ (s.tree.createDirAll turn.file.extensionDir).isSome = true

def MovesIn (s : Store) (turn : Turn) : Prop :=
  s.MakesDir turn ∧ turn.answers.moves = true ∧
    FileTree.hasNul (turn.file.extensionDir ++ [sanitizeFilename turn.file.originalName]) = false

theorem hasNul_uniqueName {β : Type*} (tree : FileTree β) (dir : Path) (desired : Text) :
    FileTree.hasNul (dir ++ [uniqueName tree dir desired]) = FileTree.hasNul (dir ++ [desired]) := by
  have hName := uniqueName_spec tree dir desired
  have hChar : (uniqueName tree dir desired).contains '\x00' = desired.contains '\x00' := by
    rw [Bool.eq_iff_iff, List.contains_iff_mem, List.contains_iff_mem]
    constructor
    · intro hMem
      by_contra hDesired
      exact hName.not_mem hDesired (by decide) (by decide) (by decide) hMem
    · exact fun hDesired => hName.mem hDesired (by decide)
  rw [FileTree.hasNul, FileTree.hasNul, List.any_append, List.any_append, List.any_cons, List.any_cons, hChar]

theorem write_uniqueName {β : Type*} {tree made : FileTree β} {dir : Path} (hMade : tree.createDirAll dir = some made)
    (desired : Text) (content : β) :
    made.write (dir ++ [uniqueName made dir desired]) content =
      if FileTree.hasNul (dir ++ [desired]) then none
      else some (made.put (dir ++ [uniqueName made dir desired]) (.file content)) := by
  have hParent : made.lookup (dir ++ [uniqueName made dir desired]).dropLast = some .dir := by
    rw [List.dropLast_concat, FileTree.lookup_createDirAll hMade, if_pos List.prefix_rfl]
  rw [FileTree.write, hParent, lookup_uniqueName, hasNul_uniqueName]

/-- What comes of a file whose hash is not known. -/
inductive PlacesOne (s : Store) (turn : Turn) : Store × Except PlaceError Unit → Prop where
  | noDir (hDir : ¬ s.MakesDir turn) : PlacesOne s turn (s, .error .createDir)
  | unmoved {made : FileTree Text} (hDir : s.MakesDir turn) (hMoves : ¬ s.MovesIn turn)
    (hMade : s.tree.createDirAll turn.file.extensionDir = some made) :
    PlacesOne s turn ({ s with tree := made }, .error .move)
  | moved {made : FileTree Text} {name : Text} {index : IndexStore} {committed : Bool} (hMoves : s.MovesIn turn)
    (hMade : s.tree.createDirAll turn.file.extensionDir = some made)
    (hFree : made.lookup (turn.file.extensionDir ++ [name]) = none)
    (hCommit : s.index.commit turn.file.contentHash
      ⟨turn.file.extension ++ '/' :: name, turn.file.originalKey, turn.file.bucketAlias⟩ turn.answers.append =
        (index, committed)) :
    PlacesOne s turn
      (⟨made.put (turn.file.extensionDir ++ [name]) (.file turn.file.contentHash), index⟩,
        if committed then .ok () else .error .commit)

theorem placeOne_cases (s : Store) (turn : Turn) : PlacesOne s turn (s.placeOne turn.file turn.answers) := by
  rw [placeOne]
  split
  · rename_i hNone
    refine .noDir ?_
    rintro ⟨hAnswer, hSome⟩
    rw [if_pos hAnswer] at hNone
    rw [hNone] at hSome
    cases hSome
  · rename_i made hSome
    obtain ⟨hAnswer, hMade⟩ := Option.ite_none_right_eq_some.mp hSome
    have hDir : s.MakesDir turn := ⟨hAnswer, Option.isSome_iff_exists.mpr ⟨made, hMade⟩⟩
    dsimp only
    rw [write_uniqueName hMade]
    split
    · rename_i hNone
      refine .unmoved hDir ?_ hMade
      rintro ⟨-, hMove, hNul⟩
      rw [if_pos hMove, hNul] at hNone
      cases hNone
    · rename_i written hWritten
      obtain ⟨hMove, hWritten⟩ := Option.ite_none_right_eq_some.mp hWritten
      obtain ⟨hNul, hWritten⟩ := Option.ite_none_left_eq_some.mp hWritten
      cases hWritten
      have hMoves : s.MovesIn turn := ⟨hDir, hMove, Bool.eq_false_iff.mpr hNul⟩
      have hFree := lookup_uniqueName made turn.file.extensionDir (sanitizeFilename turn.file.originalName)
      split
      · rename_i hCommit
        exact .moved hMoves hMade hFree hCommit
      · rename_i hCommit
        exact .moved hMoves hMade hFree hCommit

/-! ## A call that fails -/

/-- If the call fails, tree and index are as they were. -/
def Clean (s : Store) (turn : Turn) : Prop :=
  ∀ error, (s.placeOne turn.file turn.answers).2 = .error error →
    (∀ path, (s.placeOne turn.file turn.answers).1.tree.lookup path = s.tree.lookup path) ∧
      (s.placeOne turn.file turn.answers).1.index = s.index

/-- The row of a file that is moved is appended, and the directory for one that is not was there before. -/
structure Kept (s : Store) (turn : Turn) : Prop where
  append : s.MovesIn turn → turn.answers.append = .ok
  dir : s.MakesDir turn → ¬ s.MovesIn turn → s.tree.lookup turn.file.extensionDir = some .dir

theorem commit_eq {index next : IndexStore} {hash : Text} {entry : ContentIndexEntry} {outcome : Text.AppendOutcome}
    {committed : Bool} (h : index.commit hash entry outcome = (next, committed)) :
    committed = true ∧ outcome = .ok ∧
        next = ⟨some (index.file.getD [] ++ (indexRow hash entry ++ ['\n'])), (hash, entry) :: index.entries⟩ ∨
      committed = false ∧ (∃ written, outcome = .failed written) ∧ next.entries = index.entries := by
  cases outcome with
  | ok =>
    cases h
    exact .inl ⟨rfl, rfl, rfl⟩
  | failed written =>
    cases h
    exact .inr ⟨rfl, ⟨written, rfl⟩, rfl⟩

theorem lookup_made {tree made : FileTree Text} {file : HashedFile}
    (hMade : tree.createDirAll file.extensionDir = some made)
    (hDir : tree.lookup file.extensionDir = some .dir) (path : Path) : made.lookup path = tree.lookup path := by
  rw [FileTree.lookup_createDirAll hMade]
  split
  · rename_i hOnTheWay
    obtain rfl | hSame : path = [] ∨ path = file.extensionDir := by
      rw [HashedFile.extensionDir] at hOnTheWay ⊢
      split at hOnTheWay
      · exact .inl (List.prefix_nil.mp hOnTheWay)
      · rename_i hExtension
        rw [if_neg hExtension]
        obtain hNil | ⟨rest, rfl, hRest⟩ := List.prefix_cons_iff.mp hOnTheWay
        · exact .inl hNil
        · exact .inr (by rw [List.prefix_nil.mp hRest])
    · exact (FileTree.lookup_root tree).symm
    · rw [hSame, hDir]
  · rfl

theorem clean_iff (s : Store) (turn : Turn) : s.Clean turn ↔ s.Kept turn := by
  have hCases := placeOne_cases s turn
  rw [Clean]
  generalize s.placeOne turn.file turn.answers = result at hCases ⊢
  cases hCases with
  | noDir hDir =>
    constructor
    · exact fun _ => ⟨fun hMoves => absurd hMoves.1 hDir, fun hMakes => absurd hMakes hDir⟩
    · exact fun _ _ _ => ⟨fun _ => rfl, rfl⟩
  | unmoved hDir hMoves hMade =>
    constructor
    · intro hClean
      refine ⟨fun hMoved => absurd hMoved hMoves, fun _ _ => ?_⟩
      rw [← (hClean _ rfl).1, FileTree.lookup_createDirAll hMade, if_pos List.prefix_rfl]
    · exact fun hKept _ _ => ⟨lookup_made hMade (hKept.dir hDir hMoves), rfl⟩
  | @moved made name _ _ hMoves hMade hFree hCommit =>
    obtain ⟨rfl, hOk, rfl⟩ | ⟨rfl, ⟨written, hFailed⟩, hEntries⟩ := commit_eq hCommit
    · constructor
      · exact fun _ => ⟨fun _ => hOk, fun _ hNot => absurd hMoves hNot⟩
      · intro _ error hError
        cases hError
    · constructor
      · intro hClean
        have hSame := (hClean .commit rfl).1 (turn.file.extensionDir ++ [name])
        rw [FileTree.lookup_put _ _ (by simp), if_pos rfl] at hSame
        rw [FileTree.createDirAll_keeps hMade hSame.symm] at hFree
        cases hFree
      · intro hKept
        rw [hKept.append hMoves] at hFailed
        cases hFailed

/-! ## One copy of each content -/

def OneCopy (s : Store) : Prop :=
  ∀ hash path other, s.tree.lookup path = some (.file hash) → s.tree.lookup other = some (.file hash) → path = other

/-- Every content of the tree is known, also to the next run, and the next row starts a line. -/
structure Sound (s : Store) : Prop where
  oneCopy : s.OneCopy
  known : ∀ hash path, s.tree.lookup path = some (.file hash) → (List.lookup hash s.index.entries).isSome = true
  recorded : ∀ hash path, s.tree.lookup path = some (.file hash) →
    (List.lookup hash (loadIndex s.index.file)).isSome = true
  terminated : Text.Terminated (s.index.file.getD [])

theorem fresh_sound : fresh.Sound := by
  have hNoFile (hash : Text) (path : Path) : fresh.tree.lookup path ≠ some (.file hash) :=
    FileTree.empty_noFile path hash
  exact ⟨fun hash path _ hPath => absurd hPath (hNoFile hash path),
    fun hash path hPath => absurd hPath (hNoFile hash path),
    fun hash path hPath => absurd hPath (hNoFile hash path), .inl rfl⟩

theorem Sound.congr {s next : Store} (h : s.Sound) (hTree : ∀ path, next.tree.lookup path = s.tree.lookup path)
    (hIndex : next.index = s.index) : next.Sound where
  oneCopy hash path other hPath hOther := h.oneCopy hash path other (hTree path ▸ hPath) (hTree other ▸ hOther)
  known hash path hPath := hIndex ▸ h.known hash path (hTree path ▸ hPath)
  recorded hash path hPath := hIndex ▸ h.recorded hash path (hTree path ▸ hPath)
  terminated := hIndex ▸ h.terminated

theorem exists_line_of_hash {hash : Text} (hNewline : '\n' ∉ hash) (hTab : '\t' ∉ hash) (fields : Text) :
    ∃ line ∈ Text.lines (hash ++ '\t' :: fields ++ ['\n']), ∃ entry, readIndexLine line = some (hash, entry) := by
  have hMem : '\n' ∈ fields ++ ['\n'] := List.mem_append_right _ List.mem_cons_self
  obtain ⟨start, more, hShape, hStart⟩ := List.eq_append_cons_of_mem hMem
  have hRow : hash ++ '\t' :: fields ++ ['\n'] = (hash ++ '\t' :: start) ++ '\n' :: more := by
    rw [List.append_assoc, List.cons_append, hShape, List.append_assoc, List.cons_append]
  have hFirst : '\n' ∉ hash ++ '\t' :: start := by simp [hNewline, hStart]
  rw [hRow, Text.lines_append_newline _ _ hFirst, Text.stripCr_append_cons _ (by decide)]
  refine ⟨_, List.mem_cons_self, readIndexFields (Text.stripCr start), ?_⟩
  rw [readIndexLine, Text.splitOnce_eq_some.mpr ⟨rfl, hTab⟩]

theorem lookup_loadIndex_append {contents : Text} (hTerminated : Text.Terminated contents) {hash : Text}
    (hNewline : '\n' ∉ hash) (hTab : '\t' ∉ hash) (entry : ContentIndexEntry) (asked : Text)
    (hAsked : asked = hash ∨ (List.lookup asked (loadIndex (some contents))).isSome = true) :
    (List.lookup asked (loadIndex (some (contents ++ (indexRow hash entry ++ ['\n']))))).isSome = true := by
  have hLoaded : loadIndex (some (contents ++ (indexRow hash entry ++ ['\n']))) =
      ((Text.lines (indexRow hash entry ++ ['\n'])).filterMap readIndexLine).reverse ++ loadIndex (some contents) := by
    rw [loadIndex, loadIndex, hTerminated.lines_append, List.filterMap_append, List.reverse_append]
  rw [hLoaded, List.lookup_append, Option.isSome_or, Bool.or_eq_true]
  refine hAsked.imp ?_ id
  rintro rfl
  obtain ⟨line, hLine, read, hRead⟩ := exists_line_of_hash hNewline hTab
    (entry.relativePath ++ '\t' :: (entry.originalKey ++ '\t' :: entry.sourceBucketAlias))
  rw [List.lookup_isSome_iff]
  exact ⟨(asked, read), List.mem_reverse.mpr (List.mem_filterMap.mpr ⟨line, hLine, hRead⟩), beq_self_eq_true asked⟩

theorem Sound.moved {s : Store} (h : s.Sound) {turn : Turn} {made : FileTree Text} {name : Text}
    (hMade : s.tree.createDirAll turn.file.extensionDir = some made)
    (hUnknown : List.lookup turn.file.contentHash s.index.entries = none) (entry : ContentIndexEntry) :
    Sound ⟨made.put (turn.file.extensionDir ++ [name]) (.file turn.file.contentHash),
      ⟨some (s.index.file.getD [] ++ (indexRow turn.file.contentHash entry ++ ['\n'])),
        (turn.file.contentHash, entry) :: s.index.entries⟩⟩ := by
  have hNotIn {c : Char} (hDigit : c.isDigit = false) (hLetter : c ∉ "abcdef".toList) : c ∉ turn.file.contentHash :=
    Text.not_mem_of_digits turn.hash_digits hDigit hLetter
  have hFile {hash : Text} {path : Path}
      (hPath : (made.put (turn.file.extensionDir ++ [name]) (.file turn.file.contentHash)).lookup path =
        some (.file hash)) :
      path = turn.file.extensionDir ++ [name] ∧ hash = turn.file.contentHash ∨
        s.tree.lookup path = some (.file hash) := by
    rw [FileTree.lookup_put _ _ (by simp)] at hPath
    split at hPath
    · rename_i hHere
      cases hPath
      exact .inl ⟨hHere, rfl⟩
    · rw [FileTree.lookup_createDirAll hMade] at hPath
      split at hPath
      · cases hPath
      · exact .inr hPath
  have hOld {path : Path} (hPath : s.tree.lookup path = some (.file turn.file.contentHash)) : False := by
    have hKnown := h.known _ _ hPath
    rw [hUnknown] at hKnown
    cases hKnown
  constructor
  · intro hash path other hPath hOther
    obtain ⟨rfl, rfl⟩ | hPath := hFile hPath
    · obtain ⟨rfl, -⟩ | hOther := hFile hOther
      · rfl
      · exact (hOld hOther).elim
    · obtain ⟨rfl, rfl⟩ | hOther := hFile hOther
      · exact (hOld hPath).elim
      · exact h.oneCopy hash path other hPath hOther
  · intro hash path hPath
    rw [List.lookup_cons]
    split
    · rfl
    · rename_i hNe
      obtain ⟨-, rfl⟩ | hPath := hFile hPath
      · rw [beq_self_eq_true] at hNe
        cases hNe
      · exact h.known hash path hPath
  · intro hash path hPath
    refine lookup_loadIndex_append h.terminated (hNotIn (by decide) (by decide)) (hNotIn (by decide) (by decide))
      entry hash ?_
    obtain ⟨-, rfl⟩ | hPath := hFile hPath
    · exact .inl rfl
    · have hRecorded := h.recorded hash path hPath
      rw [loadIndex_eq] at hRecorded
      exact .inr hRecorded
  · have hEnd : Text.Terminated (s.index.file.getD [] ++ indexRow turn.file.contentHash entry ++ ['\n']) :=
      Text.terminated_append_newline _
    rwa [List.append_assoc] at hEnd

theorem Sound.place {s : Store} (h : s.Sound) {turn : Turn}
    (hUnknown : List.lookup turn.file.contentHash s.index.entries = none) (hKept : s.Kept turn) :
    (s.placeOne turn.file turn.answers).1.Sound := by
  have hCases := placeOne_cases s turn
  generalize s.placeOne turn.file turn.answers = result at hCases ⊢
  cases hCases with
  | noDir _ => exact h
  | unmoved hDir hMoves hMade => exact h.congr (lookup_made hMade (hKept.dir hDir hMoves)) rfl
  | moved hMoves hMade hFree hCommit =>
    obtain ⟨-, -, rfl⟩ | ⟨-, ⟨written, hFailed⟩, -⟩ := commit_eq hCommit
    · exact h.moved hMade hUnknown _
    · rw [hKept.append hMoves] at hFailed
      cases hFailed

theorem Sound.step {s : Store} (h : s.Sound) {event : Event}
    (hKept : ∀ turn, event = .place turn → List.lookup turn.file.contentHash s.index.entries = none → s.Kept turn) :
    (s.step event).Sound := by
  cases event with
  | start => exact ⟨h.oneCopy, h.recorded, h.recorded, h.terminated⟩
  | place turn =>
    rw [Store.step]
    split
    · exact h
    · rename_i hUnknown
      exact h.place hUnknown (hKept turn rfl hUnknown)

/-! ## Over all runs -/

/-- Whenever `place_one` is called, the condition holds in the state that the history has led to. -/
def KeptThroughout (history : List Event) : Prop :=
  ∀ before turn, before ++ [.place turn] <+: history →
    List.lookup turn.file.contentHash (after before).index.entries = none → (after before).Kept turn

def CleanThroughout (history : List Event) : Prop :=
  ∀ before turn, before ++ [.place turn] <+: history →
    List.lookup turn.file.contentHash (after before).index.entries = none → (after before).Clean turn

theorem after_sound {history before : List Event} (hKept : KeptThroughout history) (hBefore : before <+: history) :
    (after before).Sound := by
  induction before using List.reverseRecOn with
  | nil => exact fresh_sound
  | append_singleton before event ih =>
    have hShorter : before <+: history := (List.prefix_append before [event]).trans hBefore
    rw [after, List.foldl_append]
    refine (ih hShorter).step fun turn hTurn hUnknown => hKept before turn ?_ hUnknown
    rw [← hTurn]
    exact hBefore

theorem cleanThroughout_iff (history : List Event) : CleanThroughout history ↔ KeptThroughout history := by
  simp only [CleanThroughout, KeptThroughout, clean_iff]

/-- Over all runs on a result directory: no content is ever there twice and calls that fail leave tree and index as
they were, if and only if every call meets the condition. -/
theorem one_copy_iff_kept (history : List Event) :
    (∀ before, before <+: history → (after before).OneCopy) ∧ CleanThroughout history ↔ KeptThroughout history := by
  constructor
  · rintro ⟨-, hClean⟩
    exact (cleanThroughout_iff history).mp hClean
  · intro hKept
    exact ⟨fun before hBefore => (after_sound hKept hBefore).oneCopy, (cleanThroughout_iff history).mpr hKept⟩

/-! ## The pass of a run -/

def HasContent (w : World) (place : Place) (hash : Text) : Prop := w.sha256File place = some hash

/-- The pass is in the state of the store. -/
structure Refines (w : World) (p : Placement) (s : Store) : Prop where
  tree : FileTree.Alike (HasContent w) p.tree s.tree
  index : p.index = s.index.entries

/-- The file system of the world answers so. -/
structure AnsweredIn (w : World) (turn : Turn) : Prop extends turn.file.HashedIn w where
  makesDir : w.makesDir turn.file.scratchPath = turn.answers.makesDir
  moves : w.moves turn.file.scratchPath = turn.answers.moves
  commits : w.commits turn.file.scratchPath = decide (turn.answers.append = .ok)

theorem placeOne_refines {w : World} {tree : FileTree Place} {s : Store}
    (hTree : FileTree.Alike (HasContent w) tree s.tree) {turn : Turn} (h : AnsweredIn w turn) :
    FileTree.Alike (HasContent w) (Deduplicate.placeOne w tree s.index.entries turn.file).1
        (s.placeOne turn.file turn.answers).1.tree ∧
      ((Deduplicate.placeOne w tree s.index.entries turn.file).2 =
          .ok (s.placeOne turn.file turn.answers).1.index.entries ∨
        (∃ error, (Deduplicate.placeOne w tree s.index.entries turn.file).2 = .error error) ∧
          (s.placeOne turn.file turn.answers).1.index.entries = s.index.entries) := by
  rw [Deduplicate.placeOne, placeOne, h.makesDir]
  have hMade : Option.Rel (FileTree.Alike (HasContent w))
      (if turn.answers.makesDir = true then tree.createDirAll turn.file.extensionDir else none)
      (if turn.answers.makesDir = true then s.tree.createDirAll turn.file.extensionDir else none) := by
    split
    · exact hTree.createDirAll _
    · exact .none
  generalize (if turn.answers.makesDir = true then tree.createDirAll turn.file.extensionDir else none) = madeP at hMade
  generalize (if turn.answers.makesDir = true then s.tree.createDirAll turn.file.extensionDir else none) = madeS
    at hMade
  cases hMade with
  | none => exact ⟨hTree, .inr ⟨⟨_, rfl⟩, rfl⟩⟩
  | @some treeP treeS hTree =>
    dsimp only
    rw [h.moves, uniqueName_alike hTree]
    generalize uniqueName treeS turn.file.extensionDir (sanitizeFilename turn.file.originalName) = name
    have hWritten : Option.Rel (FileTree.Alike (HasContent w))
        (if turn.answers.moves = true then treeP.write (turn.file.extensionDir ++ [name]) turn.file.scratchPath
          else none)
        (if turn.answers.moves = true then treeS.write (turn.file.extensionDir ++ [name]) turn.file.contentHash
          else none) := by
      split
      · exact hTree.write _ h.hash
      · exact .none
    generalize (if turn.answers.moves = true then treeP.write (turn.file.extensionDir ++ [name]) turn.file.scratchPath
      else none) = writtenP at hWritten
    generalize (if turn.answers.moves = true then treeS.write (turn.file.extensionDir ++ [name]) turn.file.contentHash
      else none) = writtenS at hWritten
    cases hWritten with
    | none => exact ⟨hTree, .inr ⟨⟨_, rfl⟩, rfl⟩⟩
    | some hTree =>
      dsimp only
      rw [h.commits]
      cases hAppend : turn.answers.append with
      | ok => exact ⟨hTree, .inl rfl⟩
      | failed written => exact ⟨hTree, .inr ⟨⟨_, rfl⟩, rfl⟩⟩

theorem Refines.step {w : World} {p : Placement} {s : Store} (hState : Refines w p s) {turn : Turn}
    (h : AnsweredIn w turn) : Refines w (placeFile w p turn.file) (s.step (.place turn)) := by
  rw [placeFile, Store.step, hState.index]
  generalize List.lookup turn.file.contentHash s.index.entries = found
  cases found with
  | some kept => exact ⟨hState.tree, rfl⟩
  | none =>
    obtain ⟨hTree, hResult⟩ := placeOne_refines hState.tree h
    generalize Deduplicate.placeOne w p.tree s.index.entries turn.file = result at hTree hResult
    obtain ⟨tree, result⟩ := result
    obtain hOk | ⟨⟨error, hError⟩, hEntries⟩ := hResult
    · obtain rfl : result = _ := hOk
      exact ⟨hTree, rfl⟩
    · obtain rfl : result = _ := hError
      exact ⟨hTree, hEntries.symm⟩

theorem Refines.foldl {w : World} {turns : List Turn} (h : ∀ turn ∈ turns, AnsweredIn w turn) {p : Placement}
    {s : Store} (hState : Refines w p s) :
    Refines w ((turns.map Turn.file).foldl (placeFile w) p) ((turns.map Event.place).foldl Store.step s) := by
  induction turns generalizing p s with
  | nil => exact hState
  | cons turn turns ih =>
    exact ih (fun other hOther => h other (List.mem_cons_of_mem _ hOther))
      (hState.step (h turn List.mem_cons_self))

/-- A run of the pass from the tree and the file of the index is the history that starts and takes the files in
their order. -/
theorem placeAndReport_refines {w : World} {tree : FileTree Place} {s : Store}
    (hTree : FileTree.Alike (HasContent w) tree s.tree) {files : List HashedFile} {turns : List Turn}
    (hTurns : turns.map Turn.file = inOrder files) (h : ∀ turn ∈ turns, AnsweredIn w turn) :
    Refines w (placeAndReport w tree (loadIndex s.index.file) files)
      ((Event.start :: turns.map Event.place).foldl step s) := by
  have hStart : Refines w (.start tree (loadIndex s.index.file)) (s.step .start) := ⟨hTree, rfl⟩
  have hEnd := hStart.foldl h
  rw [hTurns] at hEnd
  exact hEnd

/-! ## A file without a row -/

def pictureTurn (append : Text.AppendOutcome) : Turn where
  file := photosFile "a.jpg".toList
  answers := ⟨true, true, append⟩
  hash_digits c hMem := .inr (List.eq_of_mem_replicate hMem ▸ by decide)

/-- The row of the picture cannot be written, and the next run places the picture again. -/
def retriedHistory : List Event :=
  [.start, .place (pictureTurn (.failed 0)), .start, .place (pictureTurn .ok)]

theorem unrecorded_file_placed_again :
    ¬ (after retriedHistory).OneCopy ∧ ¬ CleanThroughout retriedHistory := by
  have hFirst : (after retriedHistory).tree.lookup ["jpg".toList, "a.jpg".toList] =
      some (.file (List.replicate 64 'a')) := by
    decide +kernel
  have hSecond : (after retriedHistory).tree.lookup ["jpg".toList, "a-2.jpg".toList] =
      some (.file (List.replicate 64 'a')) := by
    decide +kernel
  constructor
  · intro hOneCopy
    exact absurd (hOneCopy _ _ _ hFirst hSecond) (by decide)
  · intro hClean
    have hUnknown : List.lookup (pictureTurn (.failed 0)).file.contentHash (after [.start]).index.entries = none := by
      decide +kernel
    have hFails : ((after [.start]).placeOne (pictureTurn (.failed 0)).file (pictureTurn (.failed 0)).answers).2 =
        .error .commit := by
      decide +kernel
    have hPrefix : [Event.start] ++ [.place (pictureTurn (.failed 0))] <+: retriedHistory := ⟨_, rfl⟩
    have hSame := (hClean [.start] _ hPrefix hUnknown .commit hFails).1 ["jpg".toList, "a.jpg".toList]
    exact absurd hSame (by decide +kernel)

end Store

end Pigeon.Deduplicate
