import Pigeon.Library.Text

/-! # A text file that is cut off

A write that is interrupted leaves the first bytes of a text. Reading them back as text
fails when the cut splits a character; otherwise the lines are those of the whole rows and,
last, the beginning of one more.
-/
namespace Pigeon.Library.Text

set_option autoImplicit false

/-- What the first bytes of a text read as. -/
def cutOff (bytes : Nat) : Text → Option Text
  | [] => some []
  | c :: s =>
    if bytes = 0 then some []
    else if c.utf8Size ≤ bytes then (cutOff (bytes - c.utf8Size) s).map (c :: ·)
    else none

theorem prefix_of_cutOff {bytes : Nat} {s torn : Text} (h : cutOff bytes s = some torn) : torn <+: s := by
  induction s generalizing bytes torn with
  | nil =>
    cases h
    exact List.prefix_rfl
  | cons c s ih =>
    rw [cutOff] at h
    split at h
    · cases h
      exact List.nil_prefix
    · split at h
      · obtain ⟨rest, hRest, rfl⟩ := Option.map_eq_some_iff.mp h
        exact (List.prefix_cons_inj c).mpr (ih hRest)
      · cases h

/-- Rows, each with the line feed that ends it. -/
def unlines (rows : List Text) : Text := rows.flatMap (· ++ ['\n'])

theorem unlines_append (rows more : List Text) : unlines (rows ++ more) = unlines rows ++ unlines more :=
  List.flatMap_append

theorem unlines_cons (row : Text) (rows : List Text) : unlines (row :: rows) = row ++ '\n' :: unlines rows := by
  simp [unlines]

theorem prefix_append_singleton {β : Type*} {s before : List β} {c : β} (h : s <+: before ++ [c]) :
    s <+: before ∨ s = before ++ [c] := by
  obtain ⟨rest, hRest⟩ := h
  cases rest using List.reverseRecOn with
  | nil => exact .inr (by rw [← hRest, List.append_nil])
  | append_singleton rest last _ =>
    rw [← List.append_assoc] at hRest
    exact .inl ⟨rest, (List.append_inj' hRest rfl).1⟩

theorem prefix_append_cons {β : Type*} {s before rest : List β} {sep : β} (h : s <+: before ++ sep :: rest) :
    s <+: before ∨ ∃ tail, s = before ++ sep :: tail ∧ tail <+: rest := by
  rw [List.append_cons] at h
  obtain hInside | ⟨tail, rfl⟩ := List.prefix_or_prefix_of_prefix h (List.prefix_append (before ++ [sep]) rest)
  · obtain hBefore | rfl := prefix_append_singleton hInside
    · exact .inl hBefore
    · exact .inr ⟨[], rfl, List.nil_prefix⟩
  · exact .inr ⟨tail, by simp, (List.prefix_append_right_inj _).mp h⟩

/-- A beginning of written rows is some whole rows, then a beginning of the next one. -/
theorem exists_torn_row {β : Type*} (row : β → Text) {items : List β} {torn : Text}
    (h : torn <+: unlines (items.map row)) :
    ∃ whole fragment, torn = unlines (whole.map row) ++ fragment ∧ whole <+: items ∧
      (fragment = [] ∨ ∃ item, whole ++ [item] <+: items ∧ fragment <+: row item) := by
  induction items generalizing torn with
  | nil => exact ⟨[], [], List.eq_nil_of_prefix_nil h, List.prefix_rfl, .inl rfl⟩
  | cons item items ih =>
    rw [List.map_cons, unlines_cons] at h
    obtain hRow | ⟨rest, rfl, hRest⟩ := prefix_append_cons h
    · exact ⟨[], torn, rfl, List.nil_prefix, .inr ⟨item, by simp, hRow⟩⟩
    · obtain ⟨whole, fragment, rfl, hWhole, hFragment⟩ := ih hRest
      refine ⟨item :: whole, fragment, by simp [unlines_cons], (List.prefix_cons_inj item).mpr hWhole, ?_⟩
      obtain hNone | ⟨next, hNext, hPart⟩ := hFragment
      · exact .inl hNone
      · exact .inr ⟨next, (List.prefix_cons_inj item).mpr hNext, hPart⟩

theorem lines_torn {whole : List Text} {fragment : Text} (hWhole : ∀ row ∈ whole, '\n' ∉ row)
    (hFragment : '\n' ∉ fragment) :
    lines (unlines whole ++ fragment) = whole.map stripCr ++ if fragment = [] then [] else [fragment] := by
  rw [unlines, lines_flatMap_append _ _ hWhole]
  split
  · rename_i hNone
    rw [hNone, lines_nil]
  · rename_i hSome
    rw [lines_of_not_mem _ hFragment hSome]

theorem stripCr_prefix (line : Text) : stripCr line <+: line := by
  rw [stripCr]
  split
  · exact List.dropLast_prefix line
  · exact List.prefix_rfl

theorem exists_prefix_of_mem_lines {rows : List Text} {torn line : Text} (hRows : ∀ row ∈ rows, '\n' ∉ row)
    (h : torn <+: unlines rows) (hLine : line ∈ lines torn) : ∃ row ∈ rows, line <+: row := by
  rw [← List.map_id rows] at h
  obtain ⟨whole, fragment, rfl, hWhole, hFragment⟩ := exists_torn_row id h
  rw [List.map_id] at hLine
  have hWholeRows : ∀ row ∈ whole, '\n' ∉ row := fun row hRow => hRows row (hWhole.subset hRow)
  have hOld (hMem : line ∈ whole.map stripCr) : ∃ row ∈ rows, line <+: row := by
    obtain ⟨row, hRow, rfl⟩ := List.mem_map.mp hMem
    exact ⟨row, hWhole.subset hRow, stripCr_prefix row⟩
  obtain rfl | ⟨row, hRow, hPart⟩ := hFragment
  · rw [lines_torn hWholeRows List.not_mem_nil, if_pos rfl, List.append_nil] at hLine
    exact hOld hLine
  · have hMem : row ∈ rows := hRow.subset (by simp)
    rw [lines_torn hWholeRows fun hChar => hRows row hMem (hPart.subset hChar)] at hLine
    obtain hLine | hLine := List.mem_append.mp hLine
    · exact hOld hLine
    · split at hLine
      · cases hLine
      · rw [List.mem_singleton.mp hLine]
        exact ⟨row, hMem, hPart⟩

theorem mem_lines_of_row_prefix {rows : List Text} {row rest torn : Text} (hRows : ∀ other ∈ rows, '\n' ∉ other)
    (hRow : '\n' ∉ row) (hCr : row.getLast? ≠ some '\r') (hNonempty : row ≠ [])
    (hTorn : torn <+: unlines rows ++ (row ++ '\n' :: rest)) (hIn : unlines rows ++ row <+: torn) : row ∈ lines torn := by
  obtain ⟨more, rfl⟩ := hIn
  rw [List.append_assoc, List.prefix_append_right_inj, List.prefix_append_right_inj] at hTorn
  rw [List.append_assoc, unlines, lines_flatMap_append _ _ hRows]
  apply List.mem_append_right _
  cases more with
  | nil =>
    rw [List.append_nil, lines_of_not_mem row hRow hNonempty]
    exact List.mem_singleton_self row
  | cons c more =>
    obtain ⟨rfl, -⟩ := List.cons_prefix_cons.mp hTorn
    rw [lines_append_newline row more hRow, stripCr_of_getLast_ne row hCr]
    exact List.mem_cons_self

/-! ## A number that is cut off -/

theorem isDigit_of_prefix_showU32 {n : UInt32} {digits : Text} (h : digits <+: showU32 n) {c : Char}
    (hMem : c ∈ digits) : c.isDigit := isDigit_of_mem_showU32 (h.subset hMem)

end Pigeon.Library.Text
