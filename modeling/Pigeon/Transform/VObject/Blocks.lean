import Pigeon.Transform.VObject.Rendering

/-! # The blocks of a rendered file

No line of a rendered file begins with what a property holds, as long as no label breaks its line.
-/
namespace Pigeon.Transform.VObject

open Library

set_option autoImplicit false

def indent : Text := "  ".toList

/-- The kinds of blocks of a rendered file, and the words that begin its other lines. -/
structure Format where
  kinds : List Text
  nouns : List Text
  unbroken : ∀ kind ∈ kinds, '\n' ∉ kind
  apart : ∀ start ∈ indent :: nouns, start ≠ [] ∧ '\n' ∉ start ∧
    ∀ kind ∈ kinds, ¬ start <+: kind ++ [' '] ∧ ¬ kind ++ [' '] <+: start

def contactFormat : Format where
  kinds := ["Contact".toList]
  nouns := ["Name", "Organization", "Title", "Phone", "Email", "Address", "URL", "Birthday", "Categories", "Note",
    "(no details)"].map String.toList
  unbroken := by decide
  apart := by decide

def calendarFormat : Format where
  kinds := ["Event".toList, "Task".toList]
  nouns := ["Calendar", "Method", "Summary", "When", "Where", "Organizer", "Attendee", "Status", "Repeats", "URL",
    "Description", "No events."].map String.toList
  unbroken := by decide
  apart := by decide

def Format.IsHeading (format : Format) (line : Text) : Prop :=
  ∃ kind ∈ format.kinds, ∃ index total, line = heading kind index total

open Classical in
noncomputable def Format.headingLines (format : Format) (lines : List Text) : List Text :=
  lines.filter fun line => decide (format.IsHeading line)

/-- What a property holds never begins a line, but with a line feed. -/
def ContentInside (pieces : List Piece) : Prop :=
  ∀ before text after front c back, pieces = before ++ Piece.content text :: after → text = front ++ c :: back →
    Text.Terminated (written before ++ front) → c = '\n'

/-- The headings are those of the blocks in order, and the other lines are indented or begin with the renderer's words. -/
structure Format.Unforged (format : Format) (headings : List Text) (pieces : List Piece) : Prop where
  headings : format.headingLines ((written pieces).splitOn '\n') = headings
  others : ∀ line ∈ (written pieces).splitOn '\n', ¬ format.IsHeading line → isBlank line = false →
    indent <+: line ∨ ∃ noun ∈ format.nouns, noun <+: line
  inside : ContentInside pieces

def cardHeadings (properties : List Property) : List Text :=
  let cards := components properties ["VCARD".toList]
  cards.zipIdx.map fun (_, index) => heading "Contact".toList (index + 1) cards.length

def calendarHeadings (properties : List Property) : List Text :=
  let items := calendarItems properties
  items.zipIdx.map fun (item, index) => heading (kindNoun item.1) (index + 1) items.length

/-! ## Labels that break -/

/-- The property that holds the label of a group. -/
def labelOwner (props : List Property) (prop : Property) : Option Property :=
  prop.group.bind fun group => (named props "X-ABLABEL").find? fun owner => owner.group == some group

/-- A line feed is in the label of the group, or without one in a type that is shown. -/
def BreaksLabel (props : List Property) (prop : Property) : Prop :=
  match (labelOwner props prop).filter fun owner => !(appleLabel owner.text).isEmpty with
  | some owner => '\n' ∈ Text.trim owner.text
  | none => ∃ kind ∈ prop.paramValues "TYPE".toList, kind.map Char.toUpper ∉ uninformativeTypes ∧ '\n' ∈ kind

/-- A field that is shown with a label has a broken one. -/
def BrokenLabels (properties : List Property) : Prop :=
  ∃ card ∈ components properties ["VCARD".toList], ∃ prop ∈ keptProperties card.2,
    prop.name ∈ ["TEL", "EMAIL", "ADR", "URL"].map String.toList ∧
      isBlank (Text.trimEnd (replaceFeeds (contactValue prop))) = false ∧ BreaksLabel card.2 prop

/-! ## Rows -/

namespace Format

variable {format : Format}

def Quiet (format : Format) (row : Text) : Prop := row = [] ∨ ∃ start ∈ indent :: format.nouns, start <+: row

theorem Quiet.not_isHeading {row : Text} (h : format.Quiet row) : ¬ format.IsHeading row := by
  rintro ⟨kind, hKind, index, total, rfl⟩
  obtain hNil | ⟨start, hStart, hPrefix⟩ := h
  · simp [heading] at hNil
  · have hWord : kind ++ [' '] <+: heading kind index total := by
      refine ⟨Nat.toDigits 10 index ++ " of ".toList ++ Nat.toDigits 10 total, ?_⟩
      simp [heading]
    obtain ⟨hBelow, hAbove⟩ := (format.apart start hStart).2.2 kind hKind
    obtain hLonger | hShorter := List.prefix_or_prefix_of_prefix hPrefix hWord
    · exact hBelow hLonger
    · exact hAbove hShorter

theorem headingLines_append (lines others : List Text) :
    format.headingLines (lines ++ others) = format.headingLines lines ++ format.headingLines others := List.filter_append ..

theorem headingLines_quiet {row : Text} (hQuiet : format.Quiet row) : format.headingLines [row] = [] := by
  simp [headingLines, hQuiet.not_isHeading]

theorem headingLines_heading {line : Text} (hLine : format.IsHeading line) : format.headingLines [line] = [line] := by
  simp [headingLines, hLine]

/-- Lines that are headings, as many and in the order as they are listed, or quiet. -/
structure Rows (format : Format) (headings rows : List Text) : Prop where
  each : ∀ row ∈ rows, '\n' ∉ row ∧ (format.IsHeading row ∨ format.Quiet row)
  headings : format.headingLines rows = headings

theorem rows_nil (format : Format) : format.Rows [] [] := ⟨List.forall_mem_nil _, rfl⟩

theorem Rows.append {headings rows more others : List Text} (hFirst : format.Rows headings rows)
    (hSecond : format.Rows more others) : format.Rows (headings ++ more) (rows ++ others) := by
  refine ⟨?_, ?_⟩
  · exact List.forall_mem_append.mpr ⟨hFirst.each, hSecond.each⟩
  · rw [headingLines_append, hFirst.headings, hSecond.headings]

theorem rows_quiet {row : Text} (hFeed : '\n' ∉ row) (hQuiet : format.Quiet row) : format.Rows [] [row] :=
  ⟨List.forall_mem_singleton.mpr ⟨hFeed, .inr hQuiet⟩, headingLines_quiet hQuiet⟩

theorem rows_heading {kind : Text} (hKind : kind ∈ format.kinds) (index total : Nat) :
    format.Rows [heading kind index total] [heading kind index total] := by
  have hHeading : format.IsHeading (heading kind index total) := ⟨kind, hKind, index, total, rfl⟩
  have hFeed : '\n' ∉ heading kind index total := by
    simp only [heading, List.mem_append, List.mem_cons, not_or]
    refine ⟨⟨⟨format.unbroken kind hKind, by decide, ?_⟩, by decide⟩, ?_⟩
    · exact Text.not_mem_toDigits (by decide) index
    · exact Text.not_mem_toDigits (by decide) total
  exact ⟨List.forall_mem_singleton.mpr ⟨hFeed, .inl hHeading⟩, headingLines_heading hHeading⟩

/-! ## Pieces -/

/-- Pieces that are written as such lines, with no content at the beginning of one. -/
structure Blocks (format : Format) (headings : List Text) (pieces : List Piece) : Prop where
  rows : ∃ rows, written pieces = Text.unlines rows ∧ format.Rows headings rows
  inside : ContentInside pieces

end Format

theorem written_append (pieces more : List Piece) : written (pieces ++ more) = written pieces ++ written more :=
  List.flatMap_append

theorem ContentInside.append {pieces more : List Piece} (hFirst : ContentInside pieces)
    (hSecond : ContentInside more) : ContentInside (pieces ++ more) := by
  intro before text after front c back hPieces hText hStart
  obtain ⟨middle, rfl, hMore⟩ | ⟨middle, rfl, hMiddle⟩ := List.append_eq_append_iff.mp hPieces
  · rw [written_append, List.append_assoc] at hStart
    exact hSecond middle text after front c back hMore hText (Text.terminated_of_append hStart)
  · cases middle with
    | nil => exact hSecond [] text after front c back hMiddle.symm hText (Text.terminated_of_append hStart)
    | cons piece middle =>
      obtain ⟨rfl, -⟩ := List.cons.inj hMiddle
      exact hFirst before text middle front c back rfl hText hStart

theorem contentInside_own (text : Text) : ContentInside [.own text] := by
  intro before other after front c back hPieces
  have hMem : Piece.content other ∈ [Piece.own text] := hPieces ▸ List.mem_append_right before List.mem_cons_self
  cases List.mem_singleton.mp hMem

/-- Behind a word of the renderer's, content does not begin the line. -/
theorem contentInside_line {start : Text} (hStart : start ≠ []) {rest : List Piece}
    (hFree : ∀ piece ∈ Piece.own start :: rest, '\n' ∉ piece.text) (tail : Text) :
    ContentInside (.own start :: rest ++ [.own tail]) := by
  intro before text after front c back hPieces hText hLine
  obtain ⟨middle, rfl, hRest⟩ : ∃ middle, before = .own start :: middle ∧ ∃ more, rest = middle ++ .content text :: more := by
    cases before with
    | nil => cases (List.cons.inj hPieces).1
    | cons first middle =>
      obtain ⟨rfl, hTail⟩ := List.cons.inj hPieces
      refine ⟨middle, rfl, ?_⟩
      obtain ⟨left, -, hLeft⟩ | ⟨left, hLeft, hAfter⟩ := List.append_eq_append_iff.mp hTail
      · have hMem : Piece.content text ∈ [Piece.own tail] := hLeft ▸ List.mem_append_right left List.mem_cons_self
        cases List.mem_singleton.mp hMem
      · cases left with
        | nil => cases (List.cons.inj hAfter).1
        | cons piece left =>
          obtain ⟨rfl, -⟩ := List.cons.inj hAfter
          exact ⟨left, hLeft⟩
  obtain ⟨more, rfl⟩ := hRest
  exfalso
  have hFeed : '\n' ∉ written (.own start :: middle) ++ front := by
    intro hMem
    obtain hBefore | hFront := List.mem_append.mp hMem
    · obtain ⟨piece, hPiece, hIn⟩ := List.mem_flatMap.mp hBefore
      refine hFree piece ?_ hIn
      exact List.mem_append_left (.content text :: more) hPiece
    · apply hFree (.content text) (List.mem_cons_of_mem _ (List.mem_append_right middle List.mem_cons_self))
      rw [Piece.text, hText]
      exact List.mem_append_left _ hFront
  obtain hNil | hLast := hLine
  · rw [written, List.flatMap_cons, Piece.text, List.append_assoc] at hNil
    exact hStart (List.append_eq_nil_iff.mp hNil).1
  · exact hFeed (List.mem_of_getLast? hLast)

namespace Format

variable {format : Format}

theorem blocks_nil (format : Format) : format.Blocks [] [] := by
  refine ⟨⟨[], rfl, format.rows_nil⟩, ?_⟩
  intro before text after front c back hPieces
  exact absurd hPieces.symm (List.append_ne_nil_of_right_ne_nil before (List.cons_ne_nil _ _))

theorem Blocks.append {headings more : List Text} {pieces others : List Piece} (hFirst : format.Blocks headings pieces)
    (hSecond : format.Blocks more others) : format.Blocks (headings ++ more) (pieces ++ others) := by
  obtain ⟨rows, hWritten, hRows⟩ := hFirst.rows
  obtain ⟨below, hBelow, hMore⟩ := hSecond.rows
  refine ⟨⟨rows ++ below, ?_, hRows.append hMore⟩, ?_⟩
  · rw [written_append, hWritten, hBelow, Text.unlines, Text.unlines, Text.unlines, List.flatMap_append]
  · exact hFirst.inside.append hSecond.inside

theorem Blocks.quiet {pieces others : List Piece} (hFirst : format.Blocks [] pieces) (hSecond : format.Blocks [] others) :
    format.Blocks [] (pieces ++ others) := hFirst.append hSecond

theorem blocks_flatMap {α : Type} {items : List α} {render : α → List Piece} {headings : α → List Text}
    (h : ∀ item ∈ items, format.Blocks (headings item) (render item)) :
    format.Blocks (items.flatMap headings) (items.flatMap render) := by
  induction items with
  | nil => exact format.blocks_nil
  | cons item items ih =>
    obtain ⟨hItem, hItems⟩ := List.forall_mem_cons.mp h
    exact hItem.append (ih hItems)

theorem blocks_flatMap_quiet {α : Type} {items : List α} {render : α → List Piece}
    (h : ∀ item ∈ items, format.Blocks [] (render item)) : format.Blocks [] (items.flatMap render) := by
  have hAll : format.Blocks (items.flatMap fun _ => []) (items.flatMap render) := blocks_flatMap h
  rwa [List.flatMap_eq_nil_iff.mpr fun _ _ => rfl] at hAll

theorem blocks_own {headings rows : List Text} (hRows : format.Rows headings rows) :
    format.Blocks headings [.own (Text.unlines rows)] := by
  refine ⟨⟨rows, ?_, hRows⟩, contentInside_own _⟩
  rw [written, List.flatMap_singleton]
  rfl

theorem blocks_line {start : Text} (hStart : start ∈ indent :: format.nouns) {rest : List Piece}
    (hRest : ∀ piece ∈ rest, '\n' ∉ piece.text) (tail : Text) (hTail : '\n' ∉ tail) :
    format.Blocks [] (.own start :: rest ++ [.own (tail ++ ['\n'])]) := by
  obtain ⟨hNonempty, hFeed, -⟩ := format.apart start hStart
  refine ⟨⟨[start ++ (written rest ++ tail)], ?_, format.rows_quiet ?_ (.inr ⟨start, hStart, List.prefix_append ..⟩)⟩, ?_⟩
  · simp [written, Text.unlines, Piece.text]
  · simp only [written, List.mem_append, List.mem_flatMap, not_or, not_exists, not_and]
    exact ⟨hFeed, hRest, hTail⟩
  · exact contentInside_line hNonempty (List.forall_mem_cons.mpr ⟨hFeed, hRest⟩) _

theorem pushLine_blocks (format : Format) {line : Text} (hLine : '\n' ∉ line) : format.Blocks [] (pushLine line) := by
  rw [pushLine]
  split
  · exact blocks_own (format.rows_quiet List.not_mem_nil (.inl rfl))
  · have hContent : ∀ piece ∈ [Piece.content (Text.trimEnd line)], '\n' ∉ piece.text :=
      List.forall_mem_singleton.mpr fun hMem => hLine (Text.mem_of_mem_trimEnd hMem)
    exact blocks_line List.mem_cons_self hContent [] List.not_mem_nil

/-- A field is a line, or the line of its label and indented ones. -/
theorem pushField_blocks {noun : String} (hNoun : noun.toList ∈ format.nouns) {more : List Piece}
    (hMore : ∀ piece ∈ more, '\n' ∉ piece.text) (value : Text) : format.Blocks [] (pushField (word noun :: more) value) := by
  have hStart : noun.toList ∈ indent :: format.nouns := List.mem_cons_of_mem indent hNoun
  simp only [pushField]
  split
  · exact format.blocks_nil
  · split
    · have hLabel : format.Blocks [] (word noun :: more ++ [word ":\n"]) := blocks_line hStart hMore [':'] (by decide)
      have hLines : format.Blocks [] ((Text.lines (Text.trimEnd value)).flatMap pushLine) :=
        blocks_flatMap_quiet fun line hLine => format.pushLine_blocks (Text.not_mem_of_mem_lines hLine)
      exact hLabel.append hLines
    · rename_i hFeed
      have hRest : ∀ piece ∈ more ++ [word ": ", .content (Text.trim (Text.trimEnd value))], '\n' ∉ piece.text := by
        rw [List.forall_mem_append]
        refine ⟨hMore, List.forall_mem_cons.mpr ⟨by decide, List.forall_mem_singleton.mpr fun hMem => ?_⟩⟩
        exact hFeed (Text.mem_of_mem_trim hMem)
      have hLine := blocks_line hStart hRest [] List.not_mem_nil
      rw [List.cons_append, List.append_assoc] at hLine
      exact hLine

theorem Blocks.unforged {headings : List Text} {pieces : List Piece} (h : format.Blocks headings pieces) :
    format.Unforged headings pieces := by
  obtain ⟨rows, hWritten, hRows⟩ := h.rows
  have hLines : (written pieces).splitOn '\n' = rows ++ [[]] := by
    rw [hWritten, Text.splitOn_unlines fun row hRow => (hRows.each row hRow).1]
  refine ⟨?_, ?_, h.inside⟩
  · rw [hLines, headingLines_append, hRows.headings, headingLines_quiet (.inl rfl), List.append_nil]
  · intro line hLine hOther hInk
    rw [hLines, List.mem_append, List.mem_singleton] at hLine
    obtain hRow | rfl := hLine
    · obtain hHeading | rfl | ⟨start, hStart, hPrefix⟩ := (hRows.each line hRow).2
      · exact absurd hHeading hOther
      · cases hInk
      · obtain rfl | hNoun := List.mem_cons.mp hStart
        · exact .inl hPrefix
        · exact .inr ⟨start, hNoun, hPrefix⟩
    · cases hInk

end Format

end Pigeon.Transform.VObject
