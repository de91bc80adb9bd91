import Pigeon.Library.Torn

/-! # Files of rows

Each row of the file ends with a line feed, and its fields stand between separators. Nothing is escaped: a line
feed inside a row makes more lines of it, and a separator inside a field moves the fields behind it.
-/
namespace Pigeon.Library.Text

set_option autoImplicit false

theorem lines_unlines (rows : List Text) :
    lines (unlines rows) = rows.flatMap fun row => (row.splitOn '\n').map stripCr := by
  induction rows with
  | nil => exact lines_nil
  | cons row rows ih => rw [unlines_cons, lines_append_cons, List.flatMap_cons, ih]

theorem lines_unlines_of_not_mem {rows : List Text} (hRows : ∀ row ∈ rows, '\n' ∉ row) :
    lines (unlines rows) = rows.map stripCr := by
  have hLines := lines_torn hRows (List.not_mem_nil (a := '\n'))
  rwa [List.append_nil, if_pos rfl, List.append_nil] at hLines

theorem splitOn_unlines {rows : List Text} (hRows : ∀ row ∈ rows, '\n' ∉ row) : (unlines rows).splitOn '\n' = rows ++ [[]] := by
  induction rows with
  | nil => rfl
  | cons row rows ih =>
    obtain ⟨hRow, hRest⟩ := List.forall_mem_cons.mp hRows
    rw [unlines_cons, List.splitOn_append_cons_self_of_not_mem hRow, ih hRest, List.cons_append]

theorem Terminated.lines_append {s : Text} (h : Terminated s) (rest : Text) : lines (s ++ rest) = lines s ++ lines rest := by
  obtain rfl | hEnd := h
  · rw [lines_nil, List.nil_append, List.nil_append]
  · obtain ⟨start, rfl⟩ := List.getLast?_eq_some_iff.mp hEnd
    rw [List.append_assoc, List.singleton_append, lines_append_cons, lines_append_cons, lines_nil, List.append_nil]

theorem splitOnce_cons (sep c : Char) (s : Text) :
    splitOnce [sep] (c :: s) =
      if c = sep then some ([], s) else (splitOnce [sep] s).map fun pieces => (c :: pieces.1, pieces.2) := by
  rw [splitOnce]
  by_cases hSep : c = sep
  · rw [if_pos hSep, if_pos (by simp [hSep])]
    rfl
  · rw [if_neg hSep, if_neg (by simpa using Ne.symm hSep)]

theorem splitOnce_eq_some {sep : Char} {s before after : Text} :
    splitOnce [sep] s = some (before, after) ↔ s = before ++ sep :: after ∧ sep ∉ before := by
  constructor
  · intro hSplit
    induction s generalizing before with
    | nil => cases hSplit
    | cons c s ih =>
      rw [splitOnce_cons] at hSplit
      split at hSplit
      · rename_i hSep
        cases hSplit
        exact ⟨by rw [hSep]; rfl, List.not_mem_nil⟩
      · rename_i hSep
        obtain ⟨⟨first, second⟩, hRest, hPieces⟩ := Option.map_eq_some_iff.mp hSplit
        cases hPieces
        obtain ⟨rfl, hFirst⟩ := ih hRest
        exact ⟨rfl, List.not_mem_cons_of_ne_of_not_mem (Ne.symm hSep) hFirst⟩
  · rintro ⟨rfl, hBefore⟩
    exact splitOnce_append hBefore after

theorem splitOnce_eq_none {sep : Char} {s : Text} : splitOnce [sep] s = none ↔ sep ∉ s := by
  rw [Option.eq_none_iff_forall_ne_some]
  constructor
  · intro hNone hMem
    obtain ⟨before, after, rfl, hBefore⟩ := List.eq_append_cons_of_mem hMem
    exact hNone _ (splitOnce_eq_some.mpr ⟨rfl, hBefore⟩)
  · rintro hMem ⟨before, after⟩ hSplit
    rw [(splitOnce_eq_some.mp hSplit).1] at hMem
    simp at hMem

theorem stripCr_eq_self_iff {line : Text} : stripCr line = line ↔ line.getLast? ≠ some '\r' := by
  constructor
  · intro hSame hLast
    rw [stripCr, if_pos hLast] at hSame
    obtain ⟨before, rfl⟩ := List.getLast?_eq_some_iff.mp hLast
    rw [List.dropLast_concat] at hSame
    exact absurd (congrArg List.length hSame) (by simp)
  · exact stripCr_of_getLast_ne line

theorem mem_intercalate {sep : Text} {pieces : List Text} {c : Char} (h : c ∈ sep.intercalate pieces) :
    c ∈ sep ∨ ∃ piece ∈ pieces, c ∈ piece := by
  induction pieces with
  | nil => cases h
  | cons piece pieces ih =>
    cases pieces with
    | nil =>
      rw [List.intercalate_singleton] at h
      exact .inr ⟨piece, List.mem_cons_self, h⟩
    | cons next rest =>
      rw [List.intercalate_cons_cons, List.append_assoc, List.mem_append, List.mem_append] at h
      obtain hPiece | hSep | hRest := h
      · exact .inr ⟨piece, List.mem_cons_self, hPiece⟩
      · exact .inl hSep
      · obtain hSep | ⟨other, hOther, hMem⟩ := ih hRest
        · exact .inl hSep
        · exact .inr ⟨other, List.mem_cons_of_mem _ hOther, hMem⟩

theorem mem_intercalate_of_mem {sep : Text} {pieces : List Text} {piece : Text} (hPiece : piece ∈ pieces) {c : Char}
    (hMem : c ∈ piece) : c ∈ sep.intercalate pieces := by
  induction pieces with
  | nil => cases hPiece
  | cons first pieces ih =>
    cases pieces with
    | nil =>
      rw [List.mem_singleton] at hPiece
      rwa [List.intercalate_singleton, ← hPiece]
    | cons next rest =>
      rw [List.intercalate_cons_cons, List.append_assoc, List.mem_append, List.mem_append]
      obtain rfl | hRest := List.mem_cons.mp hPiece
      · exact .inl hMem
      · exact .inr (.inr (ih hRest))

theorem not_mem_intercalate_iff {sep : Text} {c : Char} (hSep : c ∉ sep) {pieces : List Text} :
    c ∉ sep.intercalate pieces ↔ ∀ piece ∈ pieces, c ∉ piece := by
  constructor
  · intro hFree piece hPiece hMem
    exact hFree (mem_intercalate_of_mem hPiece hMem)
  · intro hFree hMem
    obtain hIn | ⟨piece, hPiece, hIn⟩ := mem_intercalate hMem
    · exact hSep hIn
    · exact hFree piece hPiece hIn

/-! ## Numbers of 64 bits -/

def showU64 (n : UInt64) : Text := Nat.toDigits 10 n.toNat

def parseU64 (s : Text) : Option UInt64 := (parseUsize s).map UInt64.ofNat

theorem not_mem_showU64 {c : Char} (h : c.isDigit = false) (n : UInt64) : c ∉ showU64 n := not_mem_toDigits h n.toNat

@[simp] theorem parseU64_showU64 (n : UInt64) : parseU64 (showU64 n) = some n := by
  have hShow : showU64 n = showPadded 0 n.toNat := by simp [showU64, showPadded, List.leftpad]
  rw [parseU64, hShow, parseUsize_showPadded n.toNat_lt, Option.map_some, UInt64.ofNat_toNat]

end Pigeon.Library.Text
