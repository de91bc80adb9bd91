import Pigeon.Library.Utf8
import Pigeon.Library.Rows

/-! # Tables within a text

A table is a header and a line for each record, with separators between the fields and nothing escaped. An empty line
ends it. What a reader finds is the records exactly when no separator and no line feed is in a field.
-/
namespace Pigeon.Library.Text

set_option autoImplicit false

/-- The lines between the header and the first empty line. -/
def tableLines (s : Text) : List Text := (completeLines s).tail.takeWhile fun line => !line.isEmpty

/-- The records under a header, with an empty line and what stands below the table. -/
def table (sep : Char) (header : Text) (records : List (List Text)) (below : Text) : Text :=
  unlines (header :: records.map [sep].intercalate) ++ '\n' :: below

/-- The pieces between separators; the empty text has none. -/
def splitList (sep : Char) (s : Text) : List Text := if s = [] then [] else s.splitOn sep

variable {sep : Char}

theorem intercalate_eq_nil {pieces : List Text} : [sep].intercalate pieces = [] ↔ pieces = [] ∨ pieces = [[]] := by
  cases pieces with
  | nil => exact iff_of_true rfl (.inl rfl)
  | cons first pieces =>
    cases pieces with
    | nil => simp
    | cons next rest => simp [List.intercalate_cons_cons]

theorem splitOn_intercalate_iff {pieces : List Text} :
    ([sep].intercalate pieces).splitOn sep = pieces ↔ pieces ≠ [] ∧ ∀ piece ∈ pieces, sep ∉ piece := by
  constructor
  · intro hSplit
    refine ⟨?_, fun piece hPiece => ?_⟩
    · rintro rfl
      exact absurd hSplit (List.splitOn_ne_nil sep _)
    · exact not_mem_of_mem_splitOn (hSplit.symm ▸ hPiece)
  · rintro ⟨hNonempty, hFree⟩
    exact List.splitOn_intercalate sep hFree hNonempty

/-- A list is read back from the field that it is joined to, but for separators in it and the list of one empty text. -/
theorem splitList_intercalate_iff {pieces : List Text} :
    splitList sep ([sep].intercalate pieces) = pieces ↔ pieces ≠ [[]] ∧ ∀ piece ∈ pieces, sep ∉ piece := by
  rw [splitList]
  split
  · rename_i hEmpty
    obtain rfl | rfl := intercalate_eq_nil.mp hEmpty
    · exact iff_of_true rfl ⟨(List.cons_ne_nil _ _).symm, List.forall_mem_nil _⟩
    · exact iff_of_false (List.cons_ne_nil _ _).symm fun h => h.1 rfl
  · rename_i hFull
    rw [intercalate_eq_nil, not_or] at hFull
    rw [splitOn_intercalate_iff, and_iff_right hFull.1, and_iff_right hFull.2]

theorem completeLines_unlines_append {rows : List Text} (hRows : ∀ row ∈ rows, '\n' ∉ row) (below : Text) :
    completeLines (unlines rows ++ below) = rows ++ completeLines below := by
  induction rows with
  | nil => rfl
  | cons row rows ih =>
    have hRest := ih fun other hOther => hRows other (List.mem_cons_of_mem row hOther)
    have hRow : completeLines (row ++ ['\n']) = [row] := by
      rw [completeLines, List.splitOn_append_cons_self, List.splitOn_eq_singleton (hRows row List.mem_cons_self)]
      simp
    have hOpen : openLine (row ++ ['\n']) = [] := openLine_of_getLast? (List.getLast?_concat ..)
    have hSplit : unlines (row :: rows) ++ below = row ++ ['\n'] ++ (unlines rows ++ below) := by
      rw [unlines_cons, List.append_assoc, List.append_assoc]
      rfl
    rw [hSplit, completeLines_append, hRow, hOpen, List.nil_append, hRest]
    rfl

theorem not_mem_of_mem_tableLines {s line : Text} (h : line ∈ tableLines s) : '\n' ∉ line :=
  not_mem_of_mem_splitOn (List.mem_of_mem_dropLast (List.mem_of_mem_tail ((List.takeWhile_prefix _).subset h)))

/-- Lines that are not empty and have no line feed in them are the lines of the table. -/
theorem tableLines_table {header : Text} (hHeader : '\n' ∉ header) {records : List (List Text)} (below : Text)
    (hLines : ∀ record ∈ records, '\n' ∉ [sep].intercalate record ∧ [sep].intercalate record ≠ []) :
    tableLines (table sep header records below) = records.map [sep].intercalate := by
  have hRows : ∀ row ∈ header :: records.map [sep].intercalate, '\n' ∉ row := by
    rw [List.forall_mem_cons, List.forall_mem_map]
    exact ⟨hHeader, fun record hRecord => (hLines record hRecord).1⟩
  have hBelow : completeLines ('\n' :: below) = [] :: completeLines below := by
    have hSplit := completeLines_append ['\n'] below
    rwa [openLine_of_getLast? rfl] at hSplit
  have hFull : ∀ row ∈ records.map [sep].intercalate, (!row.isEmpty) = true := by
    rw [List.forall_mem_map]
    intro record hRecord
    rw [Bool.not_eq_true', List.isEmpty_eq_false_iff]
    exact (hLines record hRecord).2
  rw [tableLines, table, completeLines_unlines_append hRows, hBelow, List.cons_append, List.tail_cons,
    List.takeWhile_append_of_pos hFull]
  exact List.append_nil _

/-- The records of a table with at least two columns are read back exactly when no field has a separator or a line feed. -/
theorem splitOn_tableLines_iff {header : Text} (hHeader : '\n' ∉ header) (hSep : sep ≠ '\n') {records : List (List Text)}
    (below : Text) (hWide : ∀ record ∈ records, 2 ≤ record.length) :
    (tableLines (table sep header records below)).map (List.splitOn sep) = records ↔
      ∀ record ∈ records, ∀ field ∈ record, sep ∉ field ∧ '\n' ∉ field := by
  constructor
  · intro hRead record hRecord field hField
    rw [← hRead] at hRecord
    obtain ⟨line, hLine, rfl⟩ := List.mem_map.mp hRecord
    exact ⟨not_mem_of_mem_splitOn hField,
      fun hMem => not_mem_of_mem_tableLines hLine (subset_of_mem_splitOn hField hMem)⟩
  · intro hFree
    have hNonempty {record : List Text} (hRecord : record ∈ records) : record ≠ [] :=
      List.ne_nil_of_length_pos (Nat.lt_of_lt_of_le Nat.zero_lt_two (hWide record hRecord))
    have hLines : ∀ record ∈ records, '\n' ∉ [sep].intercalate record ∧ [sep].intercalate record ≠ [] := by
      intro record hRecord
      constructor
      · exact (not_mem_intercalate_iff (mt List.mem_singleton.mp hSep.symm)).mpr fun field hField => (hFree record hRecord field hField).2
      · intro hEmpty
        obtain hNone | hOne := intercalate_eq_nil.mp hEmpty
        · exact hNonempty hRecord hNone
        · exact absurd (hOne ▸ hWide record hRecord) (by decide)
    rw [tableLines_table hHeader below hLines, List.map_map]
    refine (List.map_congr_left (g := id) fun record hRecord => ?_).trans (List.map_id records)
    exact List.splitOn_intercalate sep (fun field hField => (hFree record hRecord field hField).1) (hNonempty hRecord)

end Pigeon.Library.Text
