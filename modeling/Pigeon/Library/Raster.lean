import Pigeon.Library.Checked

/-! # Rasters

Items that stand row by row with a fixed number of them in each row, and blocks that are copied into them.
-/
namespace Pigeon.Library

set_option autoImplicit false

variable {α : Type}

/-- The item in column `x` of row `y`. -/
def cell (stride : Nat) (items : List α) (x y : Nat) : Option α := items[y * stride + x]?

/-- The first rows of a block, `width` items in each, copied to where column `x0` and row `y0` are. -/
def blit (stride x0 y0 width : Nat) (block : List α) (rows : Nat) (items : List α) : List α :=
  (List.range rows).foldl
    (fun items row => overwrite items ((y0 + row) * stride + x0) ((block.drop (row * width)).take width)) items

variable {stride x0 y0 width : Nat} {block items : List α}

theorem blit_zero : blit stride x0 y0 width block 0 items = items := rfl

theorem blit_succ (rows : Nat) :
    blit stride x0 y0 width block (rows + 1) items =
      overwrite (blit stride x0 y0 width block rows items) ((y0 + rows) * stride + x0)
        ((block.drop (rows * width)).take width) := by
  rw [blit, List.range_succ, List.foldl_append]
  rfl

/-- A row of the block ends where its columns do. -/
theorem row_end_le {rows n : Nat} (hColumns : x0 + width ≤ stride) (hRow : rows < n) :
    rows * stride + x0 + width ≤ n * stride := by
  have hRows : (rows + 1) * stride ≤ n * stride := Nat.mul_le_mul_right stride hRow
  rw [Nat.succ_mul] at hRows
  omega

theorem length_row {row rows : Nat} (hBlock : block.length = rows * width) (hRow : row < rows) :
    ((block.drop (row * width)).take width).length = width := by
  have hEnd : row * width + 0 + width ≤ rows * width := row_end_le (by omega) hRow
  rw [List.length_take, List.length_drop]
  omega

theorem cell_overwrite {piece : List α} {x y : Nat} (hColumns : x0 + piece.length ≤ stride)
    (hFits : y0 * stride + x0 + piece.length ≤ items.length) (hx : x < stride) :
    cell stride (overwrite items (y0 * stride + x0) piece) x y =
      if y = y0 ∧ x0 ≤ x ∧ x < x0 + piece.length then piece[x - x0]? else cell stride items x y := by
  have hInside : y0 * stride + x0 ≤ y * stride + x ∧ y * stride + x < y0 * stride + x0 + piece.length ↔
      y = y0 ∧ x0 ≤ x ∧ x < x0 + piece.length := by
    rcases Nat.lt_trichotomy y y0 with hLess | rfl | hMore
    · have hEnd : y * stride + x + 1 ≤ y0 * stride := row_end_le hx hLess
      omega
    · omega
    · have hEnd := row_end_le hColumns hMore
      omega
  rw [cell, getElem?_overwrite hFits, if_congr hInside rfl rfl]
  split
  · rename_i hCell
    obtain ⟨rfl, hLeft, -⟩ := hCell
    rw [show y * stride + x - (y * stride + x0) = x - x0 by omega]
  · rfl

theorem getElem?_row {x : Nat} (hx : x < stride) (y : Nat) :
    ((items.drop (y * stride)).take stride)[x]? = cell stride items x y := by
  rw [List.getElem?_take_of_lt hx, List.getElem?_drop, cell]

theorem cell_overwrite_row {piece : List α} {row x : Nat} (hPiece : piece.length = stride)
    (hFits : row * stride + stride ≤ items.length) (hx : x < stride) (y : Nat) :
    cell stride (overwrite items (row * stride) piece) x y = if y = row then piece[x]? else cell stride items x y := by
  have hCell : cell stride (overwrite items (row * stride + 0) piece) x y = _ :=
    cell_overwrite (by omega) (by rwa [hPiece, Nat.add_zero]) hx
  rw [Nat.add_zero] at hCell
  rw [hCell, Nat.sub_zero]
  refine if_congr ?_ rfl rfl
  omega

theorem length_blit {rows n : Nat} (hColumns : x0 + width ≤ stride) (hBlock : block.length = n * width)
    (hRows : rows ≤ n) (hFits : (y0 + rows) * stride ≤ items.length) :
    (blit stride x0 y0 width block rows items).length = items.length := by
  induction rows with
  | zero => rw [blit_zero]
  | succ rows ih =>
    have hEnd : (y0 + rows) * stride + x0 + width ≤ (y0 + (rows + 1)) * stride := row_end_le hColumns (by omega)
    have hLength := ih (by omega) (by omega)
    rw [blit_succ, length_overwrite, hLength]
    rw [length_row hBlock hRows, hLength]
    omega

/-- A block shows in its own place and leaves the rest of the raster as it was. -/
theorem cell_blit {rows n : Nat} (hColumns : x0 + width ≤ stride) (hBlock : block.length = n * width)
    (hRows : rows ≤ n) (hFits : (y0 + rows) * stride ≤ items.length) {x : Nat} (hx : x < stride) (y : Nat) :
    cell stride (blit stride x0 y0 width block rows items) x y =
      if (x0 ≤ x ∧ x < x0 + width) ∧ y0 ≤ y ∧ y < y0 + rows then cell width block (x - x0) (y - y0)
      else cell stride items x y := by
  induction rows with
  | zero => rw [blit_zero, if_neg (by omega)]
  | succ rows ih =>
    have hEnd : (y0 + rows) * stride + x0 + width ≤ (y0 + (rows + 1)) * stride := row_end_le hColumns (by omega)
    have hBefore : (y0 + rows) * stride ≤ items.length := by omega
    have hRow := length_row hBlock hRows
    have hLength := length_blit hColumns hBlock (Nat.le_of_succ_le hRows) hBefore
    rw [blit_succ, cell_overwrite (by rw [hRow]; exact hColumns) (by rw [hRow, hLength]; omega) hx,
      ih (by omega) hBefore, hRow]
    split
    · rename_i hLast
      obtain ⟨rfl, hLeft, hRight⟩ := hLast
      rw [if_pos (by omega), List.getElem?_take_of_lt (by omega), List.getElem?_drop, cell, Nat.add_sub_cancel_left]
    · rename_i hOther
      refine if_congr ?_ rfl rfl
      omega

end Pigeon.Library
