import Pigeon.Library.Rows
import Pigeon.Library.Trim

/-! # INI files

A file of sections. Every line is a header in brackets, a key and a value around the first equals sign, a comment, or blank;
white space around any of them does not count.
-/
namespace Pigeon.Library.Ini

open Text

set_option autoImplicit false

structure Section where
  name : Text
  entries : List (Text × Text)
deriving DecidableEq, Repr

/-- What is read from some line on: the entries before the first header, and the sections. -/
structure File where
  top : List (Text × Text)
  sections : List Section
deriving DecidableEq, Repr

def header (line : Text) : Option Text :=
  if line.head? = some '[' ∧ line.getLast? = some ']' then some (trim (line.drop 1).dropLast) else none

def isBlank (line : Text) : Bool := line == [] || line.head? == some ';' || line.head? == some '#'

def addLine (line : Text) (file : File) : Option File :=
  if isBlank (trim line) then some file
  else
    match header (trim line) with
    | some name => some ⟨[], ⟨name, file.top⟩ :: file.sections⟩
    | none => (splitOnce ['='] line).map fun pieces => ⟨(trim pieces.1, trim pieces.2) :: file.top, file.sections⟩

def parseLines : List Text → Option File
  | [] => some ⟨[], []⟩
  | line :: rest => do addLine line (← parseLines rest)

def parse (text : Text) : Option File := parseLines (text.splitOn '\n')

def lookup (sections : List Section) (name : Text) : Option Section := sections.find? fun found => found.name == name

def Section.value (found : Section) (key : Text) : Option Text := (found.entries.find? fun entry => entry.1 == key).map Prod.snd

/-! ## Writing -/

def headerLine (name : Text) : Text := '[' :: name ++ [']']

def entryLine (entry : Text × Text) : Text := entry.1 ++ ' ' :: '=' :: ' ' :: entry.2

/-- A section with a blank line after it. -/
def sectionLines (written : Section) : List Text := headerLine written.name :: written.entries.map entryLine ++ [[]]

def render (sections : List Section) : Text := unlines (sections.flatMap sectionLines)

def isKeyChar (c : Char) : Bool := c.isAlphanum || c == '_'

/-- A value that can stand on a line of its own. -/
structure Plain (value : Text) : Prop where
  feed : '\n' ∉ value
  trimmed : trim value = value

instance (value : Text) : Decidable (Plain value) :=
  decidable_of_iff ('\n' ∉ value ∧ trim value = value)
    ⟨fun ⟨hFeed, hTrimmed⟩ => ⟨hFeed, hTrimmed⟩, fun h => ⟨h.feed, h.trimmed⟩⟩

structure WellFormed (written : Section) : Prop where
  name : Plain written.name
  keys : ∀ entry ∈ written.entries, entry.1 ≠ [] ∧ entry.1.all isKeyChar
  values : ∀ entry ∈ written.entries, Plain entry.2

/-! ## Plain values -/

theorem Plain.ends {value : Text} (h : Plain value) {c : Char} (hEnd : value.head? = some c ∨ value.getLast? = some c) :
    isWhitespace c = false := by
  rw [← h.trimmed] at hEnd
  rcases hEnd with hHead | hLast
  · exact head?_trimMatches hHead
  · exact getLast?_trimMatches hLast

theorem Plain.append {first second : Text} (hFirst : Plain first) (hSecond : Plain second) : Plain (first ++ second) := by
  refine ⟨?_, trim_of_ends ?_ ?_⟩
  · rw [List.mem_append, not_or]
    exact ⟨hFirst.feed, hSecond.feed⟩
  · intro c hHead
    rw [List.head?_append, Option.or_eq_some_iff] at hHead
    rcases hHead with hHead | ⟨-, hHead⟩
    · exact hFirst.ends (.inl hHead)
    · exact hSecond.ends (.inl hHead)
  · intro c hLast
    rw [List.getLast?_append, Option.or_eq_some_iff] at hLast
    rcases hLast with hLast | ⟨-, hLast⟩
    · exact hSecond.ends (.inr hLast)
    · exact hFirst.ends (.inr hLast)

/-! ## Reading what was written -/

theorem isWhitespace_of_isKeyChar {c : Char} (h : isKeyChar c) : isWhitespace c = false := by
  rcases Bool.or_eq_true_iff.mp h with hAlphanum | hUnderscore
  · exact isWhitespace_of_isAlphanum hAlphanum
  · rw [beq_iff_eq.mp hUnderscore]
    decide

theorem ne_of_isKeyChar {c d : Char} (h : isKeyChar c) (hOther : isKeyChar d = false) : c ≠ d := by
  rintro rfl
  rw [h] at hOther
  cases hOther

/-- A line that begins with ink keeps its first character when it is trimmed. -/
theorem exists_trim_cons {c : Char} (hInk : isWhitespace c = false) (rest : Text) : ∃ tail, trim (c :: rest) = c :: tail := by
  obtain ⟨tail, hTail⟩ : trim (c :: rest) <+: c :: rest := by
    have hStart : trimStart (c :: rest) = c :: rest := by rw [trimStart, List.dropWhile_cons, if_neg (by simp [hInk])]
    rw [trim, hStart]
    exact prefix_dropWhile isWhitespace (c :: rest)
  cases hTrim : trim (c :: rest) with
  | nil => exact absurd hTrim (trim_ne_nil_of_mem List.mem_cons_self hInk)
  | cons d rest' =>
    rw [hTrim, List.cons_append, List.cons.injEq] at hTail
    exact ⟨rest', by rw [hTail.1]⟩

theorem addLine_blank (file : File) : addLine [] file = some file := rfl

theorem addLine_header {name : Text} (hName : Plain name) (file : File) :
    addLine (headerLine name) file = some ⟨[], ⟨name, file.top⟩ :: file.sections⟩ := by
  have hTrim : trim (headerLine name) = headerLine name := by
    apply trim_of_ends
    · intro c hHead
      cases hHead
      decide
    · intro c hLast
      rw [headerLine, List.getLast?_concat] at hLast
      cases hLast
      decide
  have hHeader : header (headerLine name) = some name := by
    have hInside : ((headerLine name).drop 1).dropLast = name := List.dropLast_concat
    rw [header, if_pos ⟨rfl, List.getLast?_concat⟩, hInside, hName.trimmed]
  have hBlank : isBlank (headerLine name) = false := rfl
  rw [addLine, hTrim, hBlank, hHeader]
  rfl

theorem addLine_entry {key value : Text} (hKey : key ≠ [] ∧ key.all isKeyChar) (hValue : Plain value) (file : File) :
    addLine (entryLine (key, value)) file = some ⟨(key, value) :: file.top, file.sections⟩ := by
  obtain ⟨c, rest, rfl⟩ := List.exists_cons_of_ne_nil hKey.1
  have hAll := List.all_eq_true.mp hKey.2
  have hFirst : isKeyChar c := hAll c List.mem_cons_self
  obtain ⟨tail, hTrim⟩ := exists_trim_cons (isWhitespace_of_isKeyChar hFirst) (rest ++ ' ' :: '=' :: ' ' :: value)
  have hBlank : isBlank (c :: tail) = false := by
    have hSemicolon : c ≠ ';' := ne_of_isKeyChar hFirst (by decide)
    have hHash : c ≠ '#' := ne_of_isKeyChar hFirst (by decide)
    simp [isBlank, hSemicolon, hHash]
  have hHeader : header (c :: tail) = none := by
    have hBracket : c ≠ '[' := ne_of_isKeyChar hFirst (by decide)
    exact if_neg fun hHead => hBracket (Option.some.inj hHead.1)
  have hSplit : splitOnce ['='] (entryLine (c :: rest, value)) = some (c :: rest ++ [' '], ' ' :: value) := by
    rw [splitOnce_eq_some]
    refine ⟨List.append_cons _ _ _, ?_⟩
    intro hMem
    rcases List.mem_append.mp hMem with hKeyMem | hSpace
    · exact ne_of_isKeyChar (hAll '=' hKeyMem) (by decide) rfl
    · revert hSpace
      decide
  have hTrimKey : trim (c :: rest ++ [' ']) = c :: rest := by
    have hInk (d : Char) (hd : d ∈ c :: rest) : isWhitespace d = false := isWhitespace_of_isKeyChar (hAll d hd)
    exact (trimMatches_concat (by decide) (c :: rest)).trans (trim_eq_self hInk)
  have hTrimValue : trim (' ' :: value) = value := hValue.trimmed
  have hLine : trim (entryLine (c :: rest, value)) = c :: tail := hTrim
  rw [addLine, hLine, hBlank, hHeader, hSplit, if_neg Bool.false_ne_true, Option.map_some, hTrimKey, hTrimValue]

theorem parseLines_cons {line : Text} {rest : List Text} {file : File} (h : parseLines rest = some file) :
    parseLines (line :: rest) = addLine line file := by
  rw [parseLines, h]
  rfl

theorem parseLines_entries {entries : List (Text × Text)} (hKeys : ∀ entry ∈ entries, entry.1 ≠ [] ∧ entry.1.all isKeyChar)
    (hValues : ∀ entry ∈ entries, Plain entry.2) {rest : List Text} {sections : List Section}
    (hRest : parseLines rest = some ⟨[], sections⟩) :
    parseLines (entries.map entryLine ++ rest) = some ⟨entries, sections⟩ := by
  induction entries with
  | nil => exact hRest
  | cons entry entries ih =>
    obtain ⟨hKey, hOtherKeys⟩ := List.forall_mem_cons.mp hKeys
    obtain ⟨hValue, hOtherValues⟩ := List.forall_mem_cons.mp hValues
    rw [List.map_cons, List.cons_append, parseLines_cons (ih hOtherKeys hOtherValues), addLine_entry hKey hValue]

theorem parseLines_section {written : Section} (h : WellFormed written) {rest : List Text} {sections : List Section}
    (hRest : parseLines rest = some ⟨[], sections⟩) :
    parseLines (sectionLines written ++ rest) = some ⟨[], written :: sections⟩ := by
  have hBlank : parseLines ([] :: rest) = some ⟨[], sections⟩ := (parseLines_cons hRest).trans (addLine_blank _)
  rw [sectionLines, List.cons_append, List.cons_append, List.append_assoc, List.singleton_append,
    parseLines_cons (parseLines_entries h.keys h.values hBlank), addLine_header h.name]

theorem not_mem_sectionLines {written : Section} (h : WellFormed written) {line : Text} (hLine : line ∈ sectionLines written) :
    '\n' ∉ line := by
  rw [sectionLines, List.cons_append, List.mem_cons, List.mem_append, List.mem_singleton] at hLine
  rcases hLine with rfl | hEntry | rfl
  · simp [headerLine, h.name.feed]
  · obtain ⟨⟨key, value⟩, hMem, rfl⟩ := List.mem_map.mp hEntry
    have hKey : '\n' ∉ key := by
      intro hFeed
      exact ne_of_isKeyChar (List.all_eq_true.mp (h.keys _ hMem).2 '\n' hFeed) (by decide) rfl
    simp [entryLine, hKey, (h.values _ hMem).feed]
  · exact List.not_mem_nil

/-- What is written is read back, section by section. -/
theorem parse_render {sections : List Section} (h : ∀ written ∈ sections, WellFormed written) :
    parse (render sections) = some ⟨[], sections⟩ := by
  have hLines : ∀ line ∈ sections.flatMap sectionLines, '\n' ∉ line := by
    intro line hLine
    obtain ⟨written, hWritten, hMem⟩ := List.mem_flatMap.mp hLine
    exact not_mem_sectionLines (h written hWritten) hMem
  rw [parse, render, splitOn_unlines hLines]
  clear hLines
  induction sections with
  | nil => rfl
  | cons written sections ih =>
    obtain ⟨hWritten, hRest⟩ := List.forall_mem_cons.mp h
    rw [List.flatMap_cons, List.append_assoc]
    exact parseLines_section hWritten (ih hRest)

theorem render_append (sections more : List Section) : render (sections ++ more) = render sections ++ render more := by
  rw [render, List.flatMap_append, unlines_append]
  rfl

/-- Where no two sections share a name, a section is found by its own. -/
theorem lookup_of_mem {sections : List Section} (hNames : (sections.map Section.name).Nodup) {found : Section}
    (hMem : found ∈ sections) : lookup sections found.name = some found := by
  induction sections with
  | nil => cases hMem
  | cons first sections ih =>
    rw [List.map_cons, List.nodup_cons] at hNames
    rw [lookup, List.find?_cons]
    split
    · rename_i hSame
      rcases List.mem_cons.mp hMem with rfl | hRest
      · rfl
      · rw [beq_iff_eq.mp hSame] at hNames
        exact absurd (List.mem_map_of_mem hRest) hNames.1
    · rename_i hOther
      rcases List.mem_cons.mp hMem with rfl | hRest
      · rw [beq_self_eq_true] at hOther
        cases hOther
      · exact ih hNames.2 hRest

end Pigeon.Library.Ini
