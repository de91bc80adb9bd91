import Pigeon.Transform.Procreate
import Pigeon.Transform.Lzo1x.Safety

/-! # The assembled canvas

Tiles of distinct coordinates cover distinct places of the canvas, each the whole of its own. What a pixel shows is
therefore settled by the one tile that covers it, at whatever time that tile is visited.
-/
namespace Pigeon.Transform.Procreate

open Library

set_option autoImplicit false

/-- The four bytes of a pixel. -/
def pixelAt (stride : Nat) (bytes : List UInt8) (x y : Nat) : List UInt8 := (bytes.drop ((y * stride + x) * 4)).take 4

def Inside (document : Document) (tile : Tile) : Prop :=
  document.x0 tile < document.width ∧ document.y0 tile < document.height

def Covers (document : Document) (tile : Tile) (x y : Nat) : Prop :=
  x / document.tileSize = tile.col.toNat ∧ y / document.tileSize = tile.row.toNat

instance (document : Document) (tile : Tile) (x y : Nat) : Decidable (Covers document tile x y) :=
  inferInstanceAs (Decidable (_ ∧ _))

structure Decodes (zip : Zip) (document : Document) (tile : Tile) (raw : List UInt8) : Prop where
  decompressed : ∃ compressed, zip.byName tile.name = .ok (.ok compressed) ∧
    Lzo1x.decompress compressed (document.tileBytes tile) = .ok raw
  length : raw.length = document.tileBytes tile

/-- The tiles of the layer have coordinates of their own, lie on the canvas and decode to these bytes. -/
structure Readable (zip : Zip) (document : Document) (raw : Tile → List UInt8) : Prop where
  distinct : ((tiles zip document).map fun tile => (tile.col, tile.row)).Nodup
  inside : ∀ tile ∈ tiles zip document, Inside document tile
  decodes : ∀ tile ∈ tiles zip document, Decodes zip document tile (raw tile)

/-! ## Pixels -/

theorem length_pixelAt_le (stride : Nat) (bytes : List UInt8) (x y : Nat) : (pixelAt stride bytes x y).length ≤ 4 :=
  List.length_take_le 4 _

theorem getElem?_pixelAt {c : Nat} (hC : c < 4) (stride : Nat) (bytes : List UInt8) (x y : Nat) :
    (pixelAt stride bytes x y)[c]? = cell (stride * 4) bytes (x * 4 + c) y := by
  rw [pixelAt, List.getElem?_take_of_lt hC, List.getElem?_drop, cell]
  congr 1
  ring

theorem pixelAt_congr {stride stride' x x' y y' : Nat} {bytes bytes' : List UInt8}
    (h : ∀ c < 4, cell (stride * 4) bytes (x * 4 + c) y = cell (stride' * 4) bytes' (x' * 4 + c) y') :
    pixelAt stride bytes x y = pixelAt stride' bytes' x' y' := by
  apply List.ext_getElem?
  intro c
  rcases Nat.lt_or_ge c 4 with hC | hC
  · rw [getElem?_pixelAt hC, getElem?_pixelAt hC, h c hC]
  · rw [List.getElem?_eq_none ((length_pixelAt_le _ _ _ _).trans hC),
      List.getElem?_eq_none ((length_pixelAt_le _ _ _ _).trans hC)]

theorem pixelAt_blit {stride x0 y0 width rows x : Nat} {raw bytes : List UInt8} (hColumns : x0 + width ≤ stride)
    (hRaw : raw.length = rows * (width * 4)) (hFits : (y0 + rows) * (stride * 4) ≤ bytes.length) (hx : x < stride)
    (y : Nat) :
    pixelAt stride (blit (stride * 4) (x0 * 4) y0 (width * 4) raw rows bytes) x y =
      if (x0 ≤ x ∧ x < x0 + width) ∧ y0 ≤ y ∧ y < y0 + rows then pixelAt width raw (x - x0) (y - y0)
      else pixelAt stride bytes x y := by
  have hBytes : x0 * 4 + width * 4 ≤ stride * 4 := by omega
  have hCell (c : Nat) (hC : c < 4) :
      cell (stride * 4) (blit (stride * 4) (x0 * 4) y0 (width * 4) raw rows bytes) (x * 4 + c) y =
        if (x0 * 4 ≤ x * 4 + c ∧ x * 4 + c < x0 * 4 + width * 4) ∧ y0 ≤ y ∧ y < y0 + rows then
          cell (width * 4) raw (x * 4 + c - x0 * 4) (y - y0)
        else cell (stride * 4) bytes (x * 4 + c) y :=
    cell_blit hBytes hRaw (Nat.le_refl rows) hFits (by omega) y
  split
  · rename_i hInside
    apply pixelAt_congr
    intro c hC
    rw [hCell c hC, if_pos (by omega), show x * 4 + c - x0 * 4 = (x - x0) * 4 + c by omega]
  · rename_i hOutside
    apply pixelAt_congr
    intro c hC
    rw [hCell c hC, if_neg (by omega)]

/-! ## Tiles on the canvas -/

section Canvas

variable {document : Document} {tile : Tile}

theorem columns_le (h : Inside document tile) : document.x0 tile + document.tileWidth tile ≤ document.width := by
  have hInside := h.1
  rw [Document.tileWidth]
  omega

theorem rows_le (h : Inside document tile) : document.y0 tile + document.tileHeight tile ≤ document.height := by
  have hInside := h.2
  rw [Document.tileHeight]
  omega

theorem canvas_lt (document : Document) : document.width * document.height * 4 < wordSize := by
  have hArea : document.width * document.height ≤ maxSide * maxSide :=
    Nat.mul_le_mul document.width_mem.2 document.height_mem.2
  rw [wordSize]
  rw [maxSide] at hArea
  omega

theorem tileBytes_le (h : Inside document tile) : document.tileBytes tile ≤ document.width * document.height * 4 := by
  have hColumns := columns_le h
  have hRows := rows_le h
  rw [Document.tileBytes]
  exact Nat.mul_le_mul_right 4 (Nat.mul_le_mul (by omega) (by omega))

theorem length_raw {raw : List UInt8} (h : raw.length = document.tileBytes tile) :
    raw.length = document.tileHeight tile * (document.tileWidth tile * 4) := by
  rw [h, Document.tileBytes]
  ring

theorem decodeTile_eq {zip : Zip} {raw : List UInt8} (h : Inside document tile) (hRaw : Decodes zip document tile raw) :
    decodeTile zip document tile = .ok raw := by
  obtain ⟨compressed, hRead, hDecompressed⟩ := hRaw.decompressed
  have hWord : document.tileBytes tile < wordSize := (tileBytes_le h).trans_lt (canvas_lt document)
  have hEntry : readEntry zip tile.name = .ok compressed := by rw [readEntry, hRead]
  rw [decodeTile, bind_of_ok (word_ok hWord), bind_of_ok hEntry, hDecompressed]
  change (if raw.length = document.tileBytes tile then _ else _) = _
  rw [if_pos hRaw.length]
  rfl

/-- The place that a row is copied to ends on the canvas. -/
theorem fits {pixels : List UInt8} (h : Inside document tile)
    (hPixels : pixels.length = document.width * document.height * 4) :
    (document.y0 tile + document.tileHeight tile) * (document.width * 4) ≤ pixels.length := by
  rw [hPixels, Nat.mul_comm document.width document.height, Nat.mul_assoc]
  exact Nat.mul_le_mul_right _ (rows_le h)

theorem copyRow_eq {raw pixels : List UInt8} {ty : Nat} (h : Inside document tile)
    (hRaw : raw.length = document.tileBytes tile) (hPixels : pixels.length = document.width * document.height * 4) (hTy : ty < document.tileHeight tile) :
    copyRow document tile raw pixels ty =
      .ok (overwrite pixels ((document.y0 tile + ty) * (document.width * 4) + document.x0 tile * 4)
        ((raw.drop (ty * (document.tileWidth tile * 4))).take (document.tileWidth tile * 4))) := by
  have hWord := canvas_lt document
  have hTile := tileBytes_le h
  have hColumns : document.x0 tile * 4 + document.tileWidth tile * 4 ≤ document.width * 4 := by
    have hLe := columns_le h
    omega
  have hRead : ty * (document.tileWidth tile * 4) + 0 + document.tileWidth tile * 4 ≤
      document.tileHeight tile * (document.tileWidth tile * 4) := row_end_le (by omega) hTy
  have hWritten := row_end_le hColumns (Nat.add_lt_add_left hTy (document.y0 tile))
  have hFits := fits h hPixels
  have hLength := length_raw hRaw
  have hStart : ty * document.tileWidth tile * 4 = ty * (document.tileWidth tile * 4) := Nat.mul_assoc ..
  have hDst : ((document.y0 tile + ty) * document.width + document.x0 tile) * 4 =
      (document.y0 tile + ty) * (document.width * 4) + document.x0 tile * 4 := by ring
  have hRest : slice raw (ty * (document.tileWidth tile * 4)) raw.length =
      .ok (raw.drop (ty * (document.tileWidth tile * 4))) := by
    rw [slice_ok (by omega) (Nat.le_refl _), List.take_length]
  have hSrc : slice (raw.drop (ty * (document.tileWidth tile * 4))) 0 (document.tileWidth tile * 4) =
      .ok ((raw.drop (ty * (document.tileWidth tile * 4))).take (document.tileWidth tile * 4)) := by
    rw [slice_ok (Nat.zero_le _) (by rw [List.length_drop]; omega), List.drop_zero]
  rw [copyRow, hStart, bind_of_ok (word_ok (by omega)), bind_of_ok hRest, bind_of_ok hSrc, hDst,
    bind_of_ok (word_ok (by omega)), bind_of_ok (word_ok (by omega))]
  apply copyFromSlice_ok
  · rw [length_row hLength hTy]
  · omega

theorem copyRows_eq {raw pixels : List UInt8} {rows : Nat} (h : Inside document tile)
    (hRaw : raw.length = document.tileBytes tile) (hPixels : pixels.length = document.width * document.height * 4)
    (hRows : rows ≤ document.tileHeight tile) :
    (List.range rows).foldlM (copyRow document tile raw) pixels =
      .ok (blit (document.width * 4) (document.x0 tile * 4) (document.y0 tile) (document.tileWidth tile * 4) raw rows
        pixels) := by
  induction rows with
  | zero => rfl
  | succ rows ih =>
    have hColumns := columns_le h
    have hFits := fits h hPixels
    have hHeight : (document.y0 tile + rows) * (document.width * 4) ≤ pixels.length :=
      (Nat.mul_le_mul_right _ (by omega)).trans hFits
    have hBytes : document.x0 tile * 4 + document.tileWidth tile * 4 ≤ document.width * 4 := by omega
    have hLength := length_blit hBytes (length_raw hRaw) (Nat.le_of_succ_le hRows) hHeight
    rw [List.range_succ, List.foldlM_append, bind_of_ok (ih (Nat.le_of_succ_le hRows))]
    change (copyRow document tile raw (blit _ _ _ _ raw rows pixels) rows >>= pure) = _
    rw [copyRow_eq h hRaw (hLength.trans hPixels) hRows, blit_succ]
    rfl

theorem paint_eq {zip : Zip} {raw pixels : List UInt8} (h : Inside document tile) (hRaw : Decodes zip document tile raw)
    (hPixels : pixels.length = document.width * document.height * 4) :
    paint zip document pixels tile =
      .ok (blit (document.width * 4) (document.x0 tile * 4) (document.y0 tile) (document.tileWidth tile * 4) raw
        (document.tileHeight tile) pixels) := by
  rw [paint, if_neg (by rw [Inside] at h; omega), bind_of_ok (decodeTile_eq h hRaw)]
  exact copyRows_eq h hRaw.length hPixels (Nat.le_refl _)

/-- The columns of a cropped tile are those whose quotient is its own. -/
theorem column_iff {size side x column : Nat} (hSize : 0 < size) (hx : x < side) :
    column * size ≤ x ∧ x < column * size + min size (side - column * size) ↔ x / size = column := by
  rw [Nat.div_eq_iff hSize]
  omega

theorem sub_eq_mod {size x column : Nat} (h : x / size = column) : x - column * size = x % size := by
  rw [Nat.mod_eq_sub_div_mul, h]

/-- A tile shows where it covers the canvas. -/
theorem pixelAt_paint {raw pixels : List UInt8} (h : Inside document tile) (hRaw : raw.length = document.tileBytes tile)
    (hPixels : pixels.length = document.width * document.height * 4) {x y : Nat} (hx : x < document.width)
    (hy : y < document.height) :
    pixelAt document.width (blit (document.width * 4) (document.x0 tile * 4) (document.y0 tile) (document.tileWidth tile * 4)
        raw (document.tileHeight tile) pixels) x y =
      if Covers document tile x y then
        pixelAt (document.tileWidth tile) raw (x % document.tileSize) (y % document.tileSize)
      else pixelAt document.width pixels x y := by
  have hSize : 0 < document.tileSize := Nat.lt_of_lt_of_le (by decide) document.tileSize_mem.1
  have hCovers : (document.x0 tile ≤ x ∧ x < document.x0 tile + document.tileWidth tile) ∧
      document.y0 tile ≤ y ∧ y < document.y0 tile + document.tileHeight tile ↔ Covers document tile x y :=
    and_congr (column_iff hSize hx) (column_iff hSize hy)
  rw [pixelAt_blit (columns_le h) (length_raw hRaw) (fits h hPixels) hx, if_congr hCovers rfl rfl]
  split
  · rename_i hCovered
    rw [Document.x0, Document.y0, sub_eq_mod hCovered.1, sub_eq_mod hCovered.2]
  · rfl

end Canvas

/-! ## Visits -/

/-- What the canvas shows when these tiles have been visited. -/
structure Painted (document : Document) (raw : Tile → List UInt8) (seen : List Tile) (pixels : List UInt8) : Prop where
  size : pixels.length = document.width * document.height * 4
  shown : ∀ tile ∈ seen, ∀ x y, x < document.width → y < document.height → Covers document tile x y →
    pixelAt document.width pixels x y =
      pixelAt (document.tileWidth tile) (raw tile) (x % document.tileSize) (y % document.tileSize)
  blank : ∀ x y, x < document.width → y < document.height → (∀ tile ∈ seen, ¬ Covers document tile x y) →
    pixelAt document.width pixels x y = [0, 0, 0, 0]

section Visits

variable {zip : Zip} {document : Document} {raw : Tile → List UInt8}

theorem painted_nil (document : Document) (raw : Tile → List UInt8) :
    Painted document raw [] (List.replicate (document.width * document.height * 4) 0) where
  size := List.length_replicate
  shown := fun _ hTile => by cases hTile
  blank := by
    intro x y hx hy _
    have hPlace := row_end_le (show x + 1 ≤ document.width from hx) hy
    rw [pixelAt, List.drop_replicate, List.take_replicate, Nat.min_eq_left]
    · rfl
    · rw [Nat.mul_comm document.width document.height]
      omega

theorem Covers.unique {tile other : Tile} {x y : Nat} (h : Covers document tile x y) (hOther : Covers document other x y) :
    (other.col, other.row) = (tile.col, tile.row) := by
  have hCol : other.col = tile.col := UInt32.toNat_inj.mp (hOther.1.symm.trans h.1)
  have hRow : other.row = tile.row := UInt32.toNat_inj.mp (hOther.2.symm.trans h.2)
  rw [hCol, hRow]

theorem Painted.visit {seen : List Tile} {tile : Tile} {pixels : List UInt8} (h : Painted document raw seen pixels)
    (hInside : Inside document tile) (hDecodes : Decodes zip document tile (raw tile))
    (hNew : (tile.col, tile.row) ∉ seen.map fun tile => (tile.col, tile.row)) :
    ∃ next, paint zip document pixels tile = .ok next ∧ Painted document raw (seen ++ [tile]) next := by
  refine ⟨_, paint_eq hInside hDecodes h.size, ?_, ?_, ?_⟩
  · have hColumns := columns_le hInside
    rw [length_blit (by omega) (length_raw hDecodes.length) (Nat.le_refl _) (fits hInside h.size), h.size]
  · intro other hOther x y hx hy hCovers
    rw [pixelAt_paint hInside hDecodes.length h.size hx hy]
    rcases List.mem_append.mp hOther with hSeen | hLast
    · have hUncovered : ¬ Covers document tile x y := by
        intro hCovered
        rw [← hCovered.unique hCovers] at hNew
        exact hNew (List.mem_map_of_mem hSeen)
      rw [if_neg hUncovered]
      exact h.shown other hSeen x y hx hy hCovers
    · rw [List.mem_singleton.mp hLast] at hCovers ⊢
      rw [if_pos hCovers]
  · intro x y hx hy hNone
    rw [pixelAt_paint hInside hDecodes.length h.size hx hy, if_neg (hNone tile (by simp))]
    exact h.blank x y hx hy fun other hSeen => hNone other (List.mem_append_left _ hSeen)

theorem Painted.visits {seen visiting : List Tile} {pixels : List UInt8} (h : Painted document raw seen pixels)
    (hInside : ∀ tile ∈ visiting, Inside document tile)
    (hDecodes : ∀ tile ∈ visiting, Decodes zip document tile (raw tile))
    (hDistinct : ((seen ++ visiting).map fun tile => (tile.col, tile.row)).Nodup) :
    ∃ next, visiting.foldlM (paint zip document) pixels = .ok next ∧ Painted document raw (seen ++ visiting) next := by
  induction visiting generalizing seen pixels with
  | nil => exact ⟨pixels, rfl, by rwa [List.append_nil]⟩
  | cons tile visiting ih =>
    have hNew : (tile.col, tile.row) ∉ seen.map fun tile => (tile.col, tile.row) := by
      rw [List.map_append, List.map_cons] at hDistinct
      exact fun hMem => List.disjoint_of_nodup_append hDistinct hMem List.mem_cons_self
    obtain ⟨next, hPaint, hNext⟩ :=
      h.visit (hInside tile List.mem_cons_self) (hDecodes tile List.mem_cons_self) hNew
    obtain ⟨last, hVisits, hLast⟩ := ih hNext (fun other hOther => hInside other (List.mem_cons_of_mem _ hOther))
      (fun other hOther => hDecodes other (List.mem_cons_of_mem _ hOther)) (by rwa [List.append_assoc])
    refine ⟨last, ?_, by rwa [List.append_assoc] at hLast⟩
    rw [List.foldlM_cons, bind_of_ok hPaint, hVisits]

end Visits

/-! ## Straight alpha -/

theorem length_unpremultiply (bytes : List UInt8) : (unpremultiply bytes).length = bytes.length := by
  fun_induction unpremultiply bytes with
  | case1 red green blue alpha rest ih => simp only [List.length_cons, ih]
  | case2 rest hShort => rfl

theorem drop_unpremultiply (bytes : List UInt8) (pixels : Nat) :
    (unpremultiply bytes).drop (pixels * 4) = unpremultiply (bytes.drop (pixels * 4)) := by
  induction pixels generalizing bytes with
  | zero => rw [Nat.zero_mul, List.drop_zero, List.drop_zero]
  | succ pixels ih =>
    rw [Nat.succ_mul]
    fun_cases unpremultiply bytes with
    | case1 red green blue alpha rest => exact ih rest
    | case2 rest hShort =>
      have hLength : bytes.length < 4 := by
        rcases bytes with _ | ⟨red, _ | ⟨green, _ | ⟨blue, _ | ⟨alpha, rest⟩⟩⟩⟩
        · simp
        · simp
        · simp
        · simp
        · exact (hShort red green blue alpha rest rfl).elim
      rw [List.drop_of_length_le (by omega)]
      rfl

theorem take_unpremultiply (bytes : List UInt8) : (unpremultiply bytes).take 4 = unpremultiply (bytes.take 4) := by
  rcases bytes with _ | ⟨red, _ | ⟨green, _ | ⟨blue, _ | ⟨alpha, rest⟩⟩⟩⟩
  · rfl
  · rfl
  · rfl
  · rfl
  · rfl

theorem pixelAt_unpremultiply (stride : Nat) (bytes : List UInt8) (x y : Nat) :
    pixelAt stride (unpremultiply bytes) x y = unpremultiply (pixelAt stride bytes x y) := by
  rw [pixelAt, pixelAt, drop_unpremultiply, take_unpremultiply]

/-! ## The image -/

/-- What an image shows of the tiles of a layer: where a tile covers it that tile's own pixel, and nothing elsewhere. -/
structure Shows (zip : Zip) (document : Document) (raw : Tile → List UInt8) (image : Image) : Prop where
  width : image.width = document.width
  height : image.height = document.height
  size : image.pixels.length = document.width * document.height * 4
  shown : ∀ tile ∈ tiles zip document, ∀ x y, x < document.width → y < document.height → Covers document tile x y →
    pixelAt document.width image.pixels x y =
      unpremultiply (pixelAt (document.tileWidth tile) (raw tile) (x % document.tileSize) (y % document.tileSize))
  blank : ∀ x y, x < document.width → y < document.height → (∀ tile ∈ tiles zip document, ¬ Covers document tile x y) →
    pixelAt document.width image.pixels x y = [0, 0, 0, 0]

theorem readEntry_yields (zip : Zip) (name : Text) :
    Yields (readEntry zip name) fun compressed => zip.byName name = .ok (.ok compressed) := by
  rw [readEntry]
  cases zip.byName name with
  | error err => exact ⟨_, rfl⟩
  | ok entry =>
    cases entry with
    | error err => exact ⟨_, rfl⟩
    | ok compressed => rfl

theorem mapErr_yields {α : Type} {outcome : Except Halt α} {post : α → Prop} (h : Yields outcome post)
    (wrap : String → String) :
    Yields (mapErr (fun err => unreadable (wrap err)) outcome) post := by
  cases outcome with
  | ok value => exact h
  | error e =>
    obtain ⟨message, rfl⟩ := h
    exact ⟨_, rfl⟩

theorem word_yields {value : Nat} (h : value < wordSize) : Yields (word value) (· = value) := by
  rw [word_ok h]
  rfl

section Errors

variable {zip : Zip} {document : Document}

theorem decodeTile_yields (hShort : ∀ name compressed, zip.byName name = .ok (.ok compressed) → compressed.length < 2 ^ 50)
    {tile : Tile} (hInside : Inside document tile) :
    Yields (decodeTile zip document tile) fun raw => raw.length = document.tileBytes tile := by
  refine .bind (word_yields ((tileBytes_le hInside).trans_lt (canvas_lt document))) ?_
  rintro _ rfl
  refine .bind (readEntry_yields zip tile.name) fun compressed hRead => ?_
  have hDecompress := Lzo1x.decompress_yields (hShort tile.name compressed hRead) (document.tileBytes tile)
  refine .bind (mapErr_yields hDecompress _) fun raw _ => ?_
  exact .ite (fun hLength => hLength) fun _ => ⟨_, rfl⟩

theorem paint_yields (hShort : ∀ name compressed, zip.byName name = .ok (.ok compressed) → compressed.length < 2 ^ 50)
    (tile : Tile) {pixels : List UInt8} (hPixels : pixels.length = document.width * document.height * 4) :
    Yields (paint zip document pixels tile) fun next => next.length = document.width * document.height * 4 := by
  refine .ite (fun _ => ⟨_, rfl⟩) fun hCanvas => ?_
  have hInside : Inside document tile := by
    rw [Inside]
    omega
  refine .bind (decodeTile_yields hShort hInside) fun raw hRaw => ?_
  have hColumns := columns_le hInside
  rw [copyRows_eq hInside hRaw hPixels (Nat.le_refl _)]
  change (blit _ _ _ _ raw _ pixels).length = _
  rw [length_blit (by omega) (length_raw hRaw) (Nat.le_refl _) (fits hInside hPixels), hPixels]

/-- What is assembled has the size of the canvas. -/
theorem assemble_yields (hShort : ∀ name compressed, zip.byName name = .ok (.ok compressed) → compressed.length < 2 ^ 50)
    (visiting : List Tile) :
    Yields (assemble zip document visiting) fun image => image.width = document.width ∧
      image.height = document.height ∧ image.pixels.length = document.width * document.height * 4 := by
  apply Yields.bind (word_yields (canvas_lt document))
  rintro _ rfl
  refine Yields.ite (fun _ => ⟨_, rfl⟩) ?_
  intro hTiles
  apply Yields.bind (.foldlM (fun pixels tile _ hPixels => paint_yields hShort tile hPixels) List.length_replicate)
  intro pixels hPixels
  exact ⟨rfl, rfl, (length_unpremultiply pixels).trans hPixels⟩

end Errors

theorem Painted.shows {zip : Zip} {document : Document} {raw : Tile → List UInt8} {visiting : List Tile}
    {pixels : List UInt8} (h : Painted document raw visiting pixels) (hVisiting : visiting.Perm (tiles zip document)) :
    Shows zip document raw ⟨document.width, document.height, unpremultiply pixels⟩ where
  width := rfl
  height := rfl
  size := (length_unpremultiply pixels).trans h.size
  shown := by
    intro tile hTile x y hx hy hCovers
    rw [pixelAt_unpremultiply, h.shown tile (hVisiting.mem_iff.mpr hTile) x y hx hy hCovers]
  blank := by
    intro x y hx hy hNone
    rw [pixelAt_unpremultiply, h.blank x y hx hy fun tile hTile => hNone tile (hVisiting.mem_iff.mp hTile)]
    rfl

/-- In whatever order the tiles are visited, no sum overflows and no slice is out of bounds, and a layer that has tiles and
whose tiles can be read is shown as a whole. -/
theorem assemble_shows (zip : Zip) (document : Document) {visiting : List Tile}
    (hVisiting : visiting.Perm (tiles zip document)) :
    ((∀ name compressed, zip.byName name = .ok (.ok compressed) → compressed.length < 2 ^ 50) →
        ∀ e, assemble zip document visiting = .error e → ∃ message, e = .error message) ∧
      ∀ raw, Readable zip document raw → tiles zip document ≠ [] →
        ∃ image, assemble zip document visiting = .ok image ∧ Shows zip document raw image := by
  constructor
  · intro hShort e hError
    exact (assemble_yields hShort visiting).error hError
  · intro raw hReadable hTiles
    have hVisited : visiting ≠ [] := fun hNone => hTiles (by rw [hNone] at hVisiting; exact hVisiting.nil_eq.symm)
    have hDistinct : ((([] : List Tile) ++ visiting).map fun tile => (tile.col, tile.row)).Nodup :=
      (hVisiting.map _).nodup_iff.mpr hReadable.distinct
    obtain ⟨pixels, hVisits, hPainted⟩ :
        ∃ pixels,
          visiting.foldlM (paint zip document) (List.replicate (document.width * document.height * 4) 0) = .ok pixels ∧
            Painted document raw visiting pixels :=
      (painted_nil document raw).visits (fun tile hTile => hReadable.inside tile (hVisiting.mem_iff.mp hTile))
        (fun tile hTile => hReadable.decodes tile (hVisiting.mem_iff.mp hTile)) hDistinct
    refine ⟨_, ?_, hPainted.shows hVisiting⟩
    rw [assemble, bind_of_ok (word_ok (canvas_lt document)), if_neg (by rwa [List.isEmpty_iff]), bind_of_ok hVisits]
    rfl

/-- A canvas that is one pixel wider than its first tile. -/
def strip : Document := ⟨17, 1, 16, "A".toList, by decide, by decide, by decide⟩

def stripTile : Tile → List UInt8
  | ⟨_, 0, _⟩ => List.replicate 64 7
  | _ => [10, 20, 30, 100]

def stripZip : Zip where
  fileNames := ["A/0~0.chunk".toList, "Document.archive".toList, "A/1~0.chunk".toList]
  byName name := .ok (.ok (if name = "A/1~0.chunk".toList then [21, 10, 20, 30, 100, 0x11, 0, 0]
    else 81 :: (List.replicate 64 7 ++ [0x11, 0, 0])))

theorem tiles_strip : tiles stripZip strip = [⟨"A/0~0.chunk".toList, 0, 0⟩, ⟨"A/1~0.chunk".toList, 1, 0⟩] := by decide

theorem readable_strip : Readable stripZip strip stripTile where
  distinct := by
    rw [tiles_strip]
    decide
  inside := by
    rw [tiles_strip]
    intro tile hTile
    rcases List.mem_pair.mp hTile with rfl | rfl
    · exact ⟨by decide, by decide⟩
    · exact ⟨by decide, by decide⟩
  decodes := by
    rw [tiles_strip]
    intro tile hTile
    rcases List.mem_pair.mp hTile with rfl | rfl
    · exact ⟨⟨_, rfl, rfl⟩, by decide⟩
    · exact ⟨⟨_, rfl, rfl⟩, by decide⟩

theorem assemble_shows_strip :
    (∀ e, assemble stripZip strip (tiles stripZip strip).reverse = .error e → ∃ message, e = .error message) ∧
      ∃ image, assemble stripZip strip (tiles stripZip strip).reverse = .ok image ∧
        Shows stripZip strip stripTile image := by
  obtain ⟨hErrors, hImage⟩ := assemble_shows stripZip strip (List.reverse_perm _)
  refine ⟨hErrors ?_, hImage stripTile readable_strip (by rw [tiles_strip]; decide)⟩
  intro name compressed hRead
  have hBytes := Except.ok.inj (Except.ok.inj hRead)
  rw [← hBytes]
  split
  · decide
  · decide

def bareZip : Zip where
  fileNames := []
  byName _ := .error "specified file not found in archive"

theorem readable_bare (document : Document) (raw : Tile → List UInt8) : Readable bareZip document raw where
  distinct := List.nodup_nil
  inside := fun _ hTile => (List.not_mem_nil hTile).elim
  decodes := fun _ hTile => (List.not_mem_nil hTile).elim

/-- A layer without tiles is refused. -/
theorem not_assemble_bare :
    ¬ ∀ (zip : Zip) (document : Document) (raw : Tile → List UInt8) (visiting : List Tile),
      visiting.Perm (tiles zip document) → Readable zip document raw →
        ∃ image, assemble zip document visiting = .ok image ∧ Shows zip document raw image := by
  intro hAll
  obtain ⟨image, hImage, -⟩ := hAll bareZip strip stripTile [] (List.Perm.refl _) (readable_bare strip stripTile)
  cases hImage

end Pigeon.Transform.Procreate
