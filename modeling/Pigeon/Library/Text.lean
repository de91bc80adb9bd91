import Pigeon.Library.Trim

/-! # Text as a list of Unicode scalar values: lines, fields and decimal numbers

A string is the list of its scalar values. Splitting at a separator is `List.splitOn`
and printing a number is `Nat.toDigits`; what is added here is the standard-library
behaviour built on them, with the equations that let a proof read a written file back.
-/
namespace Pigeon.Library

set_option autoImplicit false

abbrev Text := List Char

namespace Text

/-- The Unicode property `White_Space`. -/
def isWhitespace (c : Char) : Bool :=
  let n := c.toNat
  (9 ≤ n && n ≤ 13) || n == 0x20 || n == 0x85 || n == 0xA0 || n == 0x1680 ||
    (0x2000 ≤ n && n ≤ 0x200A) || n == 0x2028 || n == 0x2029 || n == 0x202F ||
    n == 0x205F || n == 0x3000

def trimStart (s : Text) : Text := s.dropWhile isWhitespace

def trimEnd (s : Text) : Text := (s.reverse.dropWhile isWhitespace).reverse

def trim (s : Text) : Text := trimEnd (trimStart s)

def stripCr (line : Text) : Text :=
  if line.getLast? = some '\r' then line.dropLast else line

/-- The pieces between line feeds; a carriage return before a line feed goes with it, and
an empty piece after the last line feed is no line. -/
def lines (s : Text) : List Text :=
  let pieces := s.splitOn '\n'
  pieces.dropLast.map stripCr ++
    (match pieces.getLast? with
    | none | some [] => []
    | some last => [last])

/-- `str::split` at a non-empty separator; `skip` counts what is left of the separator. -/
def splitTextFrom (sep piece : Text) : Nat → Text → List Text
  | _, [] => [piece]
  | skip + 1, _ :: s => splitTextFrom sep piece skip s
  | 0, c :: s =>
    if sep.isPrefixOf (c :: s) then piece :: splitTextFrom sep [] (sep.length - 1) s
    else splitTextFrom sep (piece ++ [c]) 0 s

def splitText (sep s : Text) : List Text := splitTextFrom sep [] 0 s

/-- The text before the last occurrence of `sep` and the text after it. -/
def rsplitOnce (sep : Char) : Text → Option (Text × Text)
  | [] => none
  | c :: s =>
    match rsplitOnce sep s with
    | some (before, after) => some (c :: before, after)
    | none => if c = sep then some ([], s) else none

/-- `str::split_once` at a text: what stands before its first occurrence and after it. -/
def splitOnce (sep : Text) : Text → Option (Text × Text)
  | [] => if sep = [] then some ([], []) else none
  | c :: s =>
    if sep.isPrefixOf (c :: s) then some ([], (c :: s).drop sep.length)
    else (splitOnce sep s).map fun pieces => (c :: pieces.1, pieces.2)

/-- How many bytes the text takes in UTF-8. -/
def byteLength (s : Text) : Nat := (s.map Char.utf8Size).sum

/-- The longest beginning of at most `bytes` bytes that ends at a character boundary. -/
def takeBytes (bytes : Nat) : Text → Text
  | [] => []
  | c :: s => if c.utf8Size ≤ bytes then c :: takeBytes (bytes - c.utf8Size) s else []

/-- `Path::file_name` -/
def fileName (s : Text) : Option Text :=
  match ((s.splitOn '/').filter fun component => !(component == [] || component == ['.'])).getLast? with
  | some component => if component = ['.', '.'] then none else some component
  | none => none

/-- `Path::join` below a directory that does not end in the separator. -/
def joinPath (dir s : Text) : Text := if s.head? = some '/' then s else dir ++ '/' :: s

/-- `Path::file_stem` and `Path::extension` of a name that is not `..`. -/
def stemExtension (name : Text) : Text × Option Text :=
  match rsplitOnce '.' name with
  | none | some ([], _) => (name, none)
  | some (stem, extension) => (stem, some extension)

/-- `str::strip_suffix` -/
def stripSuffix (suffix s : Text) : Option Text :=
  if suffix.isSuffixOf s then some (s.take (s.length - suffix.length)) else none

/-- What stands after the last line feed. -/
def lastLine (s : Text) : Text :=
  match rsplitOnce '\n' s with
  | some (_, after) => after
  | none => s

/-- What appending a line to a file comes to: the whole line, or an error after some of it. -/
inductive AppendOutcome where
  | ok
  | failed (written : Nat)
deriving DecidableEq, Repr

def appendLine (s line : Text) : AppendOutcome → Text
  | .ok => s ++ (line ++ ['\n'])
  | .failed written => s ++ (line ++ ['\n']).take written

/-- What is written next starts a line. -/
def Terminated (s : Text) : Prop := s = [] ∨ s.getLast? = some '\n'

instance (s : Text) : Decidable (Terminated s) := by unfold Terminated; infer_instance

/-- The text has this line, with the line feed that ends it. -/
def HasLine (s line : Text) : Prop := ∃ before after, s = before ++ (line ++ '\n' :: after) ∧ Terminated before

def parseNat (s : Text) : Option Nat :=
  if s ≠ [] ∧ s.all Char.isDigit then some (Nat.ofDigitChars 10 s 0) else none

/-- An optional sign `+`, then decimal digits that denote a number below `2 ^ 32`. -/
def parseU32 (s : Text) : Option UInt32 :=
  let digits := if s.head? = some '+' then s.tail else s
  match parseNat digits with
  | some n => if n < UInt32.size then some (UInt32.ofNat n) else none
  | none => none

/-- The same for a number below `2 ^ 64`. -/
def parseUsize (s : Text) : Option Nat :=
  let digits := if s.head? = some '+' then s.tail else s
  match parseNat digits with
  | some n => if n < 2 ^ 64 then some n else none
  | none => none

/-- Decimal digits, with zeros in front up to the width. -/
def showPadded (width n : Nat) : Text := (Nat.toDigits 10 n).leftpad width '0'

def showU32 (n : UInt32) : Text := Nat.toDigits 10 n.toNat

/-! ## Lines -/

@[simp] theorem lines_nil : lines [] = [] := by decide

theorem lines_append_newline (line rest : Text) (hLine : '\n' ∉ line) :
    lines (line ++ '\n' :: rest) = stripCr line :: lines rest := by
  have hNonempty : rest.splitOn '\n' ≠ [] := List.splitOn_ne_nil _ _
  simp only [lines, List.splitOn_append_cons_self_of_not_mem hLine]
  rw [List.dropLast_cons_of_ne_nil hNonempty, List.getLast?_cons_of_ne_nil hNonempty]
  rfl

theorem lines_of_not_mem (line : Text) (hLine : '\n' ∉ line) (hNonempty : line ≠ []) :
    lines line = [line] := by
  obtain ⟨c, cs, rfl⟩ := List.exists_cons_of_ne_nil hNonempty
  simp [lines, List.splitOn_eq_singleton hLine]

theorem stripCr_of_getLast_ne (line : Text) (h : line.getLast? ≠ some '\r') : stripCr line = line := by
  rw [stripCr, if_neg h]

theorem stripCr_subset (line : Text) : stripCr line ⊆ line := by
  rw [stripCr]
  split
  · exact List.dropLast_subset line
  · exact List.Subset.refl line

theorem lines_append_cons (before after : Text) :
    lines (before ++ '\n' :: after) = (before.splitOn '\n').map stripCr ++ lines after := by
  have hNonempty : after.splitOn '\n' ≠ [] := List.splitOn_ne_nil _ _
  have hLast : (before.splitOn '\n' ++ after.splitOn '\n').getLast? = (after.splitOn '\n').getLast? := by
    rw [List.getLast?_append, Option.or_of_isSome (List.getLast?_isSome.mpr hNonempty)]
  simp only [lines, List.splitOn_append_cons_self]
  rw [List.dropLast_append_of_ne_nil hNonempty, List.map_append, hLast, List.append_assoc]

/-- A terminated text is the lines it was made of, each without its own line feed. -/
theorem lines_flatMap_append (rows : List Text) (rest : Text) (hRows : ∀ row ∈ rows, '\n' ∉ row) :
    lines (rows.flatMap (· ++ ['\n']) ++ rest) = rows.map stripCr ++ lines rest := by
  induction rows with
  | nil => rfl
  | cons row rows ih =>
    rw [List.flatMap_cons, List.append_assoc, List.append_assoc, List.singleton_append,
      lines_append_newline _ _ (hRows row List.mem_cons_self), List.map_cons, List.cons_append,
      ih (fun other hOther => hRows other (List.mem_cons_of_mem row hOther))]

theorem stripCr_append (before after : Text) (hNonempty : after ≠ []) :
    stripCr (before ++ after) = before ++ stripCr after := by
  have hLast : (before ++ after).getLast? = after.getLast? := by
    rw [List.getLast?_append, Option.or_of_isSome (List.getLast?_isSome.mpr hNonempty)]
  rw [stripCr, stripCr, hLast]
  split
  · exact List.dropLast_append_of_ne_nil hNonempty
  · rfl

/-- A carriage return at the end of a row belongs to its last field. -/
theorem stripCr_append_cons (before : Text) {sep : Char} (hSep : sep ≠ '\r') (after : Text) :
    stripCr (before ++ sep :: after) = before ++ sep :: stripCr after := by
  have hTail : stripCr (sep :: after) = sep :: stripCr after := by
    cases after with
    | nil => exact stripCr_of_getLast_ne [sep] (by simpa using hSep)
    | cons c after => exact stripCr_append [sep] (c :: after) (List.cons_ne_nil c after)
  rw [stripCr_append before _ (List.cons_ne_nil sep after), hTail]

/-! ## Names -/

theorem not_mem_of_rsplitOnce {sep : Char} {s : Text} (h : rsplitOnce sep s = none) : sep ∉ s := by
  induction s with
  | nil => exact List.not_mem_nil
  | cons c s ih =>
    rw [rsplitOnce] at h
    split at h
    · cases h
    · rename_i hNone
      split at h
      · cases h
      · rename_i hSep
        exact List.not_mem_cons_of_ne_of_not_mem (fun hEq => hSep hEq.symm) (ih hNone)

theorem rsplitOnce_eq_some {sep : Char} {s before after : Text} (h : rsplitOnce sep s = some (before, after)) :
    s = before ++ sep :: after ∧ sep ∉ after := by
  induction s generalizing before with
  | nil => cases h
  | cons c s ih =>
    rw [rsplitOnce] at h
    split at h
    · rename_i hRest
      cases h
      obtain ⟨hSplit, hLast⟩ := ih hRest
      exact ⟨by rw [hSplit]; rfl, hLast⟩
    · rename_i hNone
      split at h
      · rename_i hSep
        cases h
        exact ⟨by rw [hSep]; rfl, not_mem_of_rsplitOnce hNone⟩
      · cases h

theorem rsplitOnce_of_not_mem {sep : Char} {s : Text} (h : sep ∉ s) : rsplitOnce sep s = none := by
  cases hSplit : rsplitOnce sep s with
  | none => rfl
  | some pieces =>
    rw [(rsplitOnce_eq_some hSplit).1] at h
    simp at h

theorem rsplitOnce_append {sep : Char} (before : Text) {after : Text} (h : sep ∉ after) :
    rsplitOnce sep (before ++ sep :: after) = some (before, after) := by
  induction before with
  | nil => rw [List.nil_append, rsplitOnce, rsplitOnce_of_not_mem h, if_pos rfl]
  | cons c before ih => rw [List.cons_append, rsplitOnce, ih]

theorem getD_rsplitOnce_iff {sep : Char} {s before after : Text} (h : sep ∉ after) :
    (rsplitOnce sep s).getD ([], s) = (before, after) ↔ (before = [] ∧ s = after) ∨ s = before ++ sep :: after := by
  constructor
  · intro hSplit
    cases hFound : rsplitOnce sep s with
    | none =>
      rw [hFound] at hSplit
      cases hSplit
      exact .inl ⟨rfl, rfl⟩
    | some pieces =>
      rw [hFound] at hSplit
      obtain rfl : pieces = (before, after) := hSplit
      exact .inr (rsplitOnce_eq_some hFound).1
  · rintro (⟨rfl, rfl⟩ | rfl)
    · rw [rsplitOnce_of_not_mem h]
      rfl
    · rw [rsplitOnce_append before h]
      rfl

theorem splitOnce_append {first : Char} {sep before : Text} (h : first ∉ before) (after : Text) :
    splitOnce (first :: sep) (before ++ (first :: sep ++ after)) = some (before, after) := by
  induction before with
  | nil =>
    rw [List.nil_append, List.cons_append, splitOnce, if_pos]
    · simp
    · rw [← List.cons_append]
      exact List.isPrefixOf_iff_prefix.mpr (List.prefix_append _ _)
  | cons c before ih =>
    obtain ⟨hFirst, hBefore⟩ := not_or.mp (mt List.mem_cons.mpr h)
    rw [List.cons_append, splitOnce, if_neg, ih hBefore]
    · rfl
    · rw [List.isPrefixOf_iff_prefix, List.cons_prefix_cons]
      exact fun hPrefix => hFirst hPrefix.1

theorem splitOnce_cons_of_not_prefix {sep s : Text} {c : Char} (h : ¬sep <+: c :: s) :
    splitOnce sep (c :: s) = (splitOnce sep s).map fun pieces => (c :: pieces.1, pieces.2) := by
  rw [splitOnce, if_neg]
  rwa [List.isPrefixOf_iff_prefix]

/-- The search passes over a text without the first character of what it searches for. -/
theorem splitOnce_append_left {first : Char} {sep before : Text} (h : first ∉ before) (after : Text) :
    splitOnce (first :: sep) (before ++ after) =
      (splitOnce (first :: sep) after).map fun pieces => (before ++ pieces.1, pieces.2) := by
  induction before with
  | nil => simp
  | cons c before ih =>
    obtain ⟨hFirst, hBefore⟩ := not_or.mp (mt List.mem_cons.mpr h)
    rw [List.cons_append, splitOnce_cons_of_not_prefix, ih hBefore, Option.map_map]
    · rfl
    · rw [List.cons_prefix_cons]
      exact fun hPrefix => hFirst hPrefix.1

theorem splitOnce_of_prefix {sep s : Text} (h : sep <+: s) : splitOnce sep s = some ([], s.drop sep.length) := by
  cases s with
  | nil => simp [splitOnce, List.prefix_nil.mp h]
  | cons c s => rw [splitOnce, if_pos (List.isPrefixOf_iff_prefix.mpr h)]

theorem stripSuffix_eq_some {suffix s stem : Text} : stripSuffix suffix s = some stem ↔ s = stem ++ suffix := by
  rw [stripSuffix]
  constructor
  · intro h
    split at h
    · rename_i hSuffix
      obtain ⟨before, rfl⟩ := List.isSuffixOf_iff_suffix.mp hSuffix
      cases h
      simp
    · cases h
  · rintro rfl
    rw [if_pos (List.isSuffixOf_iff_suffix.mpr (List.suffix_append stem suffix))]
    simp

theorem byteLength_append (s t : Text) : byteLength (s ++ t) = byteLength s + byteLength t := by
  rw [byteLength, List.map_append, List.sum_append, byteLength, byteLength]

theorem byteLength_cons (c : Char) (s : Text) : byteLength (c :: s) = c.utf8Size + byteLength s := by
  rw [byteLength, List.map_cons, List.sum_cons, byteLength]

theorem byteLength_le_of_prefix {before s : Text} (h : before <+: s) : byteLength before ≤ byteLength s := by
  obtain ⟨rest, rfl⟩ := h
  rw [byteLength_append]
  exact Nat.le_add_right _ _

theorem eq_nil_of_byteLength {s : Text} (h : byteLength s = 0) : s = [] := by
  cases s with
  | nil => rfl
  | cons c s =>
    rw [byteLength_cons] at h
    exact absurd (Nat.eq_zero_of_add_eq_zero_right h) c.utf8Size_pos.ne'

theorem length_le_byteLength (s : Text) : s.length ≤ byteLength s := by
  induction s with
  | nil => exact Nat.le_refl 0
  | cons c s ih =>
    have hSize := c.utf8Size_pos
    rw [List.length_cons, byteLength_cons]
    omega

theorem takeBytes_prefix (bytes : Nat) (s : Text) : takeBytes bytes s <+: s := by
  induction s generalizing bytes with
  | nil => exact List.prefix_refl []
  | cons c s ih =>
    rw [takeBytes]
    split
    · exact List.cons_prefix_cons.mpr ⟨rfl, ih _⟩
    · exact List.nil_prefix

theorem not_mem_of_mem_splitOn {sep : Char} {s piece : Text} (h : piece ∈ s.splitOn sep) : sep ∉ piece := by
  induction s generalizing piece with
  | nil =>
    rw [List.splitOn_nil, List.mem_singleton] at h
    simp [h]
  | cons c s ih =>
    rw [List.splitOn_cons_eq_if_modifyHead] at h
    split at h
    · obtain rfl | hRest := List.mem_cons.mp h
      · exact List.not_mem_nil
      · exact ih hRest
    · rename_i hSep
      obtain ⟨first, rest, hPieces⟩ := List.exists_cons_of_ne_nil (List.splitOn_ne_nil sep s)
      rw [hPieces] at h ih
      obtain rfl | hRest := List.mem_cons.mp h
      · have hNe : sep ≠ c := by
          rintro rfl
          simp at hSep
        simpa [hNe] using ih List.mem_cons_self
      · exact ih (List.mem_cons_of_mem first hRest)

theorem subset_of_mem_splitOn {sep : Char} {s piece : Text} (h : piece ∈ s.splitOn sep) : piece ⊆ s := by
  induction s generalizing piece with
  | nil =>
    rw [List.splitOn_nil, List.mem_singleton] at h
    exact h ▸ List.nil_subset []
  | cons c s ih =>
    rw [List.splitOn_cons_eq_if_modifyHead] at h
    split at h
    · obtain rfl | hRest := List.mem_cons.mp h
      · exact List.nil_subset _
      · exact List.subset_cons_of_subset c (ih hRest)
    · obtain ⟨first, rest, hPieces⟩ := List.exists_cons_of_ne_nil (List.splitOn_ne_nil sep s)
      rw [hPieces] at h ih
      obtain rfl | hRest := List.mem_cons.mp h
      · exact List.cons_subset_cons c (ih List.mem_cons_self)
      · exact List.subset_cons_of_subset c (ih (List.mem_cons_of_mem first hRest))

theorem intercalate_append (sep : Char) {first second : List Text} (hFirst : first ≠ []) (hSecond : second ≠ []) :
    [sep].intercalate (first ++ second) = [sep].intercalate first ++ sep :: [sep].intercalate second := by
  induction first with
  | nil => exact absurd rfl hFirst
  | cons piece first ih =>
    cases first with
    | nil => simp [List.intercalate_cons_of_ne_nil hSecond]
    | cons next first =>
      have hRest := ih (List.cons_ne_nil next first)
      rw [List.cons_append, List.cons_append, List.intercalate_cons_cons, ← List.cons_append, hRest,
        List.intercalate_cons_cons]
      simp only [List.append_assoc]

theorem intercalate_injective {sep : Char} {first second : List Text} (hFirst : first ≠ []) (hSecond : second ≠ [])
    (hFirstFree : ∀ piece ∈ first, sep ∉ piece) (hSecondFree : ∀ piece ∈ second, sep ∉ piece)
    (h : [sep].intercalate first = [sep].intercalate second) : first = second := by
  rw [← List.splitOn_intercalate sep hFirstFree hFirst, h, List.splitOn_intercalate sep hSecondFree hSecond]

/-- A file name is a component of the path, and neither of the two that stand for directories. -/
theorem mem_splitOn_of_fileName {s name : Text} (h : fileName s = some name) :
    name ∈ s.splitOn '/' ∧ name ≠ [] ∧ name ≠ ['.'] ∧ name ≠ ['.', '.'] := by
  rw [fileName] at h
  split at h
  · rename_i component hLast
    split at h
    · cases h
    · rename_i hParent
      cases h
      obtain ⟨hMem, hKept⟩ := List.mem_filter.mp (List.mem_of_getLast? hLast)
      rw [Bool.not_eq_true', Bool.or_eq_false_iff, beq_eq_false_iff_ne, beq_eq_false_iff_ne] at hKept
      exact ⟨hMem, hKept.1, hKept.2, hParent⟩
  · cases h

theorem not_mem_fileName {s name : Text} (h : fileName s = some name) : '/' ∉ name :=
  not_mem_of_mem_splitOn (mem_splitOn_of_fileName h).1

theorem subset_of_fileName {s name : Text} (h : fileName s = some name) : name ⊆ s :=
  subset_of_mem_splitOn (mem_splitOn_of_fileName h).1

theorem fileName_of_component {name : Text} (hSlash : '/' ∉ name) (hNonempty : name ≠ []) (hCurrent : name ≠ ['.'])
    (hParent : name ≠ ['.', '.']) : fileName name = some name := by
  have hKept : (!(name == [] || name == ['.'])) = true := by simp [hNonempty, hCurrent]
  rw [fileName, List.splitOn_eq_singleton hSlash, List.filter_cons, if_pos hKept]
  exact if_neg hParent

/-- A character that is no separator stays within one component. -/
theorem splitOn_append_cons_of_ne {sep c : Char} (hSep : c ≠ sep) (before after : Text) :
    ∃ earlier start rest later, (before ++ c :: after).splitOn sep = earlier ++ (start ++ c :: rest) :: later ∧
      after.splitOn sep = rest :: later := by
  induction before with
  | nil =>
    obtain ⟨rest, later, hPieces⟩ := List.exists_cons_of_ne_nil (List.splitOn_ne_nil sep after)
    refine ⟨[], [], rest, later, ?_, hPieces⟩
    rw [List.nil_append, List.splitOn_cons_eq_if_modifyHead, if_neg (by simpa using hSep), hPieces]
    rfl
  | cons first before ih =>
    obtain ⟨earlier, start, rest, later, hWhole, hAfter⟩ := ih
    rw [List.cons_append, List.splitOn_cons_eq_if_modifyHead, hWhole]
    split
    · exact ⟨[] :: earlier, start, rest, later, rfl, hAfter⟩
    · cases earlier with
      | nil => exact ⟨[], first :: start, rest, later, rfl, hAfter⟩
      | cons piece earlier => exact ⟨(first :: piece) :: earlier, start, rest, later, rfl, hAfter⟩

/-- A file name without a character is not changed by cutting the path off behind it. -/
theorem fileName_of_append_cons {c : Char} (hSlash : c ≠ '/') (hDot : c ≠ '.') {before after name : Text}
    (h : fileName (before ++ c :: after) = some name) (hName : c ∉ name) : fileName after = some name := by
  obtain ⟨earlier, start, rest, later, hWhole, hAfter⟩ := splitOn_append_cons_of_ne hSlash before after
  have hKept : (!(start ++ c :: rest == [] || start ++ c :: rest == ['.'])) = true := by
    cases start <;> simp [hDot]
  rw [fileName, hWhole, List.filter_append, List.filter_cons, if_pos hKept, List.getLast?_append] at h
  rw [fileName, hAfter, List.filter_cons]
  cases hLater : later.filter (fun component => !(component == [] || component == ['.'])) with
  | nil =>
    rw [hLater, List.getLast?_singleton, Option.some_or] at h
    dsimp only at h
    split at h
    · cases h
    · cases h
      exact absurd (List.mem_append_right start List.mem_cons_self) hName
  | cons component components =>
    rw [hLater, List.getLast?_cons_cons, Option.or_of_isSome (by simp)] at h
    have hLast : (if (!(rest == [] || rest == ['.'])) = true then rest :: component :: components
        else component :: components).getLast? = (component :: components).getLast? := by
      split
      · exact List.getLast?_cons_cons
      · rfl
    rw [hLast]
    exact h

theorem mem_stemExtension {name : Text} {c : Char}
    (h : c ∈ (stemExtension name).1 ∨ ∃ extension, (stemExtension name).2 = some extension ∧ c ∈ extension) :
    c ∈ name := by
  rw [stemExtension] at h
  split at h
  · simpa using h
  · simpa using h
  · rename_i stem extension hSplit
    rw [(rsplitOnce_eq_some hSplit).1]
    simp only [Option.some.injEq, exists_eq_left'] at h
    obtain hStem | hExtension := h
    · exact List.mem_append_left _ hStem
    · exact List.mem_append_right _ (List.mem_cons_of_mem _ hExtension)

theorem lastLine_spec (s : Text) : '\n' ∉ lastLine s ∧ (s = lastLine s ∨ ∃ before, s = before ++ '\n' :: lastLine s) := by
  rw [lastLine]
  split
  · rename_i before after hSplit
    obtain ⟨hText, hLast⟩ := rsplitOnce_eq_some hSplit
    exact ⟨hLast, .inr ⟨before, hText⟩⟩
  · rename_i hNone
    exact ⟨not_mem_of_rsplitOnce hNone, .inl rfl⟩

theorem mem_lines_of_not_mem {line text : Text} (hText : '\n' ∉ text) (h : line ∈ lines text) : line = text := by
  by_cases hNonempty : text = []
  · subst text
    cases h
  · rw [lines_of_not_mem text hText hNonempty] at h
    exact List.mem_singleton.mp h

theorem mem_lines_append {s piece line : Text} (hPiece : '\n' ∉ piece) (h : line ∈ lines (s ++ piece)) :
    line ∈ lines s ∨ line = lastLine s ++ piece := by
  obtain ⟨hLast, hWhole | ⟨before, hSplit⟩⟩ := lastLine_spec s
  · refine .inr (mem_lines_of_not_mem ?_ (hWhole ▸ h))
    exact fun hMem => (List.mem_append.mp hMem).elim hLast hPiece
  · rw [hSplit, List.append_assoc, List.cons_append, lines_append_cons] at h
    obtain hOld | hNew := List.mem_append.mp h
    · left
      rw [hSplit, lines_append_cons]
      exact List.mem_append_left _ hOld
    · refine .inr (mem_lines_of_not_mem ?_ hNew)
      exact fun hMem => (List.mem_append.mp hMem).elim hLast hPiece

theorem mem_lines_of_append {s line : Text} (more : Text) (h : line ∈ lines s) :
    line ∈ lines (s ++ more) ∨ line = lastLine s := by
  obtain ⟨hLast, hWhole | ⟨before, hSplit⟩⟩ := lastLine_spec s
  · exact .inr (mem_lines_of_not_mem hLast (hWhole ▸ h))
  · rw [hSplit, lines_append_cons] at h
    obtain hBefore | hEnd := List.mem_append.mp h
    · left
      rw [hSplit, List.append_assoc, List.cons_append, lines_append_cons]
      exact List.mem_append_left _ hBefore
    · exact .inr (mem_lines_of_not_mem hLast hEnd)

theorem mem_lines_append_newline {s piece line : Text} (hPiece : '\n' ∉ piece) (h : line ∈ lines (s ++ piece ++ ['\n'])) :
    line ∈ lines s ∨ line = stripCr (lastLine s ++ piece) := by
  obtain ⟨hLast, hWhole | ⟨before, hSplit⟩⟩ := lastLine_spec s
  · right
    have hText : '\n' ∉ lastLine s ++ piece := fun hMem => (List.mem_append.mp hMem).elim hLast hPiece
    rw [hWhole, lines_append_newline _ [] hText, lines_nil, List.mem_singleton] at h
    exact h
  · have hText : '\n' ∉ lastLine s ++ piece := fun hMem => (List.mem_append.mp hMem).elim hLast hPiece
    have hShape : s ++ piece ++ ['\n'] = before ++ '\n' :: (lastLine s ++ piece ++ ['\n']) := by
      have hTail := congrArg (· ++ (piece ++ ['\n'])) hSplit
      simpa using hTail
    rw [hShape, lines_append_cons, lines_append_newline _ [] hText, lines_nil] at h
    obtain hOld | hNew := List.mem_append.mp h
    · left
      rw [hSplit, lines_append_cons]
      exact List.mem_append_left _ hOld
    · exact .inr (List.mem_singleton.mp hNew)

/-! ## Whole lines -/

theorem terminated_append_newline (s : Text) : Terminated (s ++ ['\n']) := .inr (by simp)

theorem terminated_of_append {s t : Text} (h : Terminated (s ++ t)) : Terminated t := by
  obtain rfl | hNonempty := eq_or_ne t []
  · exact .inl rfl
  · obtain hNil | hLast := h
    · exact absurd (List.append_eq_nil_iff.mp hNil).2 hNonempty
    · rw [List.getLast?_append_of_ne_nil s hNonempty] at hLast
      exact .inr hLast

theorem terminated_flatMap {s : Text} (h : Terminated s) (rows : List Text) :
    Terminated (s ++ rows.flatMap (· ++ ['\n'])) := by
  induction rows generalizing s with
  | nil => simpa using h
  | cons row rows ih =>
    have hRow : Terminated (s ++ (row ++ ['\n'])) := by
      rw [← List.append_assoc]
      exact terminated_append_newline _
    rw [List.flatMap_cons, ← List.append_assoc]
    exact ih hRow

theorem Terminated.hasLine {s : Text} (h : Terminated s) (line rest : Text) :
    HasLine (s ++ (line ++ '\n' :: rest)) line := ⟨s, rest, rfl, h⟩

theorem HasLine.append {s line : Text} (h : HasLine s line) (more : Text) : HasLine (s ++ more) line := by
  obtain ⟨before, after, rfl, hBefore⟩ := h
  exact ⟨before, after ++ more, by simp, hBefore⟩

theorem hasLine_flatMap {rows : List Text} {line : Text} (h : line ∈ rows) :
    HasLine (rows.flatMap (· ++ ['\n'])) line := by
  obtain ⟨before, after, rfl⟩ := List.append_of_mem h
  refine ⟨before.flatMap (· ++ ['\n']), after.flatMap (· ++ ['\n']), by simp, ?_⟩
  simpa using terminated_flatMap (s := []) (.inl rfl) before

theorem HasLine.mem_lines {s line : Text} (h : HasLine s line) (hLine : '\n' ∉ line) (hCr : line.getLast? ≠ some '\r') :
    line ∈ lines s := by
  obtain ⟨before, after, rfl, rfl | hEnd⟩ := h
  · rw [List.nil_append, lines_append_newline _ _ hLine, stripCr_of_getLast_ne _ hCr]
    exact List.mem_cons_self
  · obtain ⟨start, rfl⟩ := List.getLast?_eq_some_iff.mp hEnd
    rw [List.append_assoc, List.singleton_append, lines_append_cons, lines_append_newline _ _ hLine,
      stripCr_of_getLast_ne _ hCr]
    exact List.mem_append_right _ List.mem_cons_self

theorem not_mem_of_mem_lines {s line : Text} (h : line ∈ lines s) : '\n' ∉ line := by
  obtain hPiece | hLast := List.mem_append.mp h
  · obtain ⟨piece, hMem, rfl⟩ := List.mem_map.mp hPiece
    exact fun hChar => not_mem_of_mem_splitOn (List.dropLast_subset _ hMem) (stripCr_subset piece hChar)
  · split at hLast
    · cases hLast
    · cases hLast
    · rename_i last _ hEnd
      rw [List.mem_singleton.mp hLast]
      exact not_mem_of_mem_splitOn (List.mem_of_getLast? hEnd)

/-! ## Decimal numbers -/

theorem not_mem_of_digits {s signs : Text} (h : ∀ c ∈ s, c.isDigit = true ∨ c ∈ signs) {c : Char}
    (hDigit : c.isDigit = false) (hSign : c ∉ signs) : c ∉ s := by
  intro hMem
  obtain hIs | hIs := h c hMem
  · rw [hDigit] at hIs
    cases hIs
  · exact hSign hIs

theorem not_mem_toDigits {c : Char} (h : c.isDigit = false) (n : Nat) : c ∉ Nat.toDigits 10 n :=
  not_mem_of_digits (fun _ hMem => .inl (Nat.isDigit_of_mem_toDigits (by decide) (by decide) hMem)) h List.not_mem_nil

theorem isDigit_of_mem_showU32 {n : UInt32} {c : Char} (h : c ∈ showU32 n) : c.isDigit :=
  Nat.isDigit_of_mem_toDigits (by decide) (by decide) h

theorem showU32_ne_nil (n : UInt32) : showU32 n ≠ [] := Nat.toDigits_ne_nil

theorem not_mem_showU32 {c : Char} (h : c.isDigit = false) (n : UInt32) : c ∉ showU32 n := not_mem_toDigits h n.toNat

@[simp] theorem parseNat_toDigits (n : Nat) : parseNat (Nat.toDigits 10 n) = some n := by
  rw [parseNat, if_pos, Nat.ofDigitChars_ten_toDigits]
  refine ⟨Nat.toDigits_ne_nil, List.all_eq_true.mpr ?_⟩
  intro c hc
  exact Nat.isDigit_of_mem_toDigits (by decide) (by decide) hc

theorem not_mem_of_parseU32 {s : Text} {n : UInt32} (h : parseU32 s = some n) {c : Char} (hDigit : c.isDigit = false)
    (hSign : c ≠ '+') : c ∉ s := by
  have hDigits {digits : Text} {m : Nat} (hRead : parseNat digits = some m) : c ∉ digits := by
    rw [parseNat] at hRead
    split at hRead
    · rename_i hAll
      intro hMem
      rw [List.all_eq_true.mp hAll.2 c hMem] at hDigit
      cases hDigit
    · cases hRead
  simp only [parseU32] at h
  split at h
  · rename_i m hRead
    split at hRead
    · rename_i hHead
      obtain ⟨rest, rfl⟩ := List.head?_eq_some_iff.mp hHead
      exact List.not_mem_cons_of_ne_of_not_mem hSign (hDigits hRead)
    · exact hDigits hRead
  · cases h

@[simp] theorem parseU32_showU32 (n : UInt32) : parseU32 (showU32 n) = some n := by
  have hSign : (showU32 n).head? ≠ some '+' := by
    intro h
    exact not_mem_showU32 (by decide) n (List.mem_of_mem_head? h)
  simp only [parseU32, if_neg hSign]
  rw [showU32, parseNat_toDigits]
  simp [UInt32.toNat_lt_size n]

theorem showU32_injective {m n : UInt32} (h : showU32 m = showU32 n) : m = n := by
  have hParse := parseU32_showU32 m
  rw [h, parseU32_showU32] at hParse
  exact (Option.some.inj hParse).symm

theorem isDigit_of_mem_showPadded {width n : Nat} {c : Char} (h : c ∈ showPadded width n) : c.isDigit := by
  obtain hZero | hDigit := List.mem_append.mp h
  · rw [List.eq_of_mem_replicate hZero]
    rfl
  · exact Nat.isDigit_of_mem_toDigits (by decide) (by decide) hDigit

theorem not_mem_showPadded {c : Char} (h : c.isDigit = false) (width n : Nat) : c ∉ showPadded width n :=
  not_mem_of_digits (fun _ hMem => .inl (isDigit_of_mem_showPadded hMem)) h List.not_mem_nil

theorem showPadded_ne_nil (width n : Nat) : showPadded width n ≠ [] :=
  List.append_ne_nil_of_right_ne_nil _ Nat.toDigits_ne_nil

theorem ofDigitChars_showPadded (width n : Nat) : Nat.ofDigitChars 10 (showPadded width n) 0 = n := by
  rw [showPadded, List.leftpad]
  induction width - (Nat.toDigits 10 n).length with
  | zero => exact Nat.ofDigitChars_ten_toDigits
  | succ k ih =>
    rw [List.replicate_succ, List.cons_append]
    exact ih

theorem showPadded_injective {width m n : Nat} (h : showPadded width m = showPadded width n) : m = n := by
  rw [← ofDigitChars_showPadded width m, h, ofDigitChars_showPadded]

theorem parseUsize_showPadded {n : Nat} (h : n < 2 ^ 64) (width : Nat) : parseUsize (showPadded width n) = some n := by
  have hSign : (showPadded width n).head? ≠ some '+' := by
    intro hPlus
    have hDigit := isDigit_of_mem_showPadded (List.mem_of_head? hPlus)
    revert hDigit
    decide
  simp only [parseUsize, if_neg hSign, parseNat]
  rw [if_pos ⟨showPadded_ne_nil width n, List.all_eq_true.mpr fun c => isDigit_of_mem_showPadded⟩,
    ofDigitChars_showPadded width n]
  exact if_pos h

theorem trim_of_ends {s : Text} (hFirst : ∀ c, s.head? = some c → isWhitespace c = false)
    (hLast : ∀ c, s.getLast? = some c → isWhitespace c = false) : trim s = s := trimMatches_eq_self hFirst hLast

theorem trim_eq_self {s : Text} (h : ∀ c ∈ s, isWhitespace c = false) : trim s = s :=
  trim_of_ends (fun c hHead => h c (List.mem_of_mem_head? hHead)) fun c hLast => h c (List.mem_of_getLast? hLast)

theorem mem_of_mem_trimEnd {s : Text} {c : Char} (h : c ∈ trimEnd s) : c ∈ s := (prefix_dropWhile isWhitespace s).subset h

theorem mem_of_mem_trim {s : Text} {c : Char} (h : c ∈ trim s) : c ∈ s := mem_of_mem_trimMatches h

theorem trim_ne_nil_of_mem {s : Text} {c : Char} (hMem : c ∈ s) (hInk : isWhitespace c = false) : trim s ≠ [] :=
  List.ne_nil_of_mem (mem_trimMatches hMem hInk)

theorem isWhitespace_of_isAlphanum {c : Char} (h : c.isAlphanum) : isWhitespace c = false := by
  have hRange : (65 ≤ c.toNat ∧ c.toNat ≤ 90 ∨ 97 ≤ c.toNat ∧ c.toNat ≤ 122) ∨ 48 ≤ c.toNat ∧ c.toNat ≤ 57 := by
    simp only [Char.isAlphanum, Char.isAlpha, Char.isUpper, Char.isLower, Char.isDigit, Bool.or_eq_true,
      Bool.and_eq_true, decide_eq_true_eq, UInt32.le_iff_toNat_le, ge_iff_le] at h
    exact h
  simp only [isWhitespace, Bool.or_eq_false_iff, Bool.and_eq_false_iff, beq_eq_false_iff_ne,
    decide_eq_false_iff_not]
  omega

theorem isWhitespace_of_isDigit {c : Char} (h : c.isDigit) : isWhitespace c = false := by
  apply isWhitespace_of_isAlphanum
  rw [Char.isAlphanum, h, Bool.or_true]

@[simp] theorem trim_showU32 (n : UInt32) : trim (showU32 n) = showU32 n :=
  trim_eq_self fun _ hc => isWhitespace_of_isDigit (isDigit_of_mem_showU32 hc)

end Text

end Pigeon.Library
