import Pigeon.Library.Fallible
import Pigeon.Library.Rectangle
import Pigeon.Transform.Procreate.Assembly

/-! # Turned and flipped canvases

Each turn, and the flip, copies every pixel to a place of its own. Where they lead is settled on the places alone, and an
image is known by the pixels of its places.
-/
namespace Pigeon.Transform.Procreate

open Library

set_option autoImplicit false

/-- An image whose buffer is of its size. -/
structure Picture (w h : Nat) where
  pixels : List UInt8
  length_pixels : pixels.length = w * h * 4
  fits : w * h * 4 < 2 ^ 63
  width_lt : w < 2 ^ 32
  height_lt : h < 2 ^ 32

namespace Picture

variable {w h w' h' : Nat}

def image (picture : Picture w h) : Image := ⟨w, h, picture.pixels⟩

def pixel (picture : Picture w h) (place : Place w h) : List UInt8 := pixelAt w picture.pixels place.1 place.2

end Picture

/-- Every pixel is shown again, and each where the permutation of the places takes it. -/
def Moves {w h w' h' : Nat} (picture : Picture w h) (move : Place w h ≃ Place w' h') (out : Picture w' h') : Prop :=
  ∀ place, out.pixel (move place) = picture.pixel place

/-- On every picture of this size the operation goes through, and does what the permutation says. -/
def Realises {w h w' h' : Nat} (operation : Image → Except Halt Image) (move : Place w h ≃ Place w' h') : Prop :=
  ∀ picture : Picture w h, ∃ out : Picture w' h', operation picture.image = .ok out.image ∧ Moves picture move out

/-- The permutation that a turn is meant to be. -/
def Rotation.move (rotation : Rotation) (w h : Nat) : Place w h ≃ Place (rotation.outWidth w h) (rotation.outHeight w h) :=
  match rotation with
  | .clockwise => Place.clockwise w h
  | .counterClockwise => Place.counterClockwise w h
  | .half => Place.half w h

/-! ## Pixels and places -/

section Places

variable {w h w' h' : Nat}

theorem place_end_le (place : Place w h) : (place.2.val * w + place.1.val) * 4 + 4 ≤ w * h * 4 := by
  have hEnd : place.2.val * w + place.1.val + 1 ≤ h * w := row_end_le place.1.isLt place.2.isLt
  rw [Nat.mul_comm w h]
  omega

/-- Places come one after another in the buffer. -/
theorem place_eq_of_index {place other : Place w h}
    (hIndex : place.2.val * w + place.1.val = other.2.val * w + other.1.val) : place = other := by
  have hRow (place : Place w h) : (place.2.val * w + place.1.val) / w = place.2.val := by
    rw [Nat.add_comm, Nat.add_mul_div_right _ _ (Nat.zero_lt_of_lt place.1.isLt), Nat.div_eq_of_lt place.1.isLt, Nat.zero_add]
  have hSameRow : place.2.val = other.2.val := by rw [← hRow place, ← hRow other, hIndex]
  rw [hSameRow] at hIndex
  exact Prod.ext (Fin.ext (Nat.add_left_cancel hIndex)) (Fin.ext hSameRow)

theorem length_pixel (picture : Picture w h) (place : Place w h) : (picture.pixel place).length = 4 := by
  have hEnd := place_end_le place
  rw [Picture.pixel, pixelAt, List.length_take, List.length_drop, picture.length_pixels]
  omega

theorem pixelAt_overwrite {bytes pixel : List UInt8} {x0 y0 x y : Nat} (hPixel : pixel.length = 4) (hx0 : x0 < w)
    (hFits : (y0 * w + x0) * 4 + 4 ≤ bytes.length) (hx : x < w) :
    pixelAt w (overwrite bytes ((y0 * w + x0) * 4) pixel) x y =
      if x = x0 ∧ y = y0 then pixel else pixelAt w bytes x y := by
  have hStart : (y0 * w + x0) * 4 = y0 * (w * 4) + x0 * 4 := by ring
  have hByte (c : Nat) (hC : c < 4) : (pixelAt w (overwrite bytes ((y0 * w + x0) * 4) pixel) x y)[c]? =
      if y = y0 ∧ x0 * 4 ≤ x * 4 + c ∧ x * 4 + c < x0 * 4 + 4 then pixel[x * 4 + c - x0 * 4]?
      else cell (w * 4) bytes (x * 4 + c) y := by
    rw [getElem?_pixelAt hC, hStart, cell_overwrite (by omega) (by omega) (by omega), hPixel]
  apply List.ext_getElem?
  intro c
  rcases Nat.lt_or_ge c 4 with hC | hC
  · rw [hByte c hC]
    split
    · rename_i hInside
      rw [if_pos (by omega), show x * 4 + c - x0 * 4 = c by omega]
    · rename_i hOutside
      rw [if_neg (by omega), getElem?_pixelAt hC]
  · rw [List.getElem?_eq_none ((length_pixelAt_le _ _ _ _).trans hC), List.getElem?_eq_none]
    split
    · exact hPixel.le.trans hC
    · exact (length_pixelAt_le _ _ _ _).trans hC

/-- A picture is known by its pixels. -/
theorem pixels_ext {picture other : Picture w h} (hPixel : ∀ place, picture.pixel place = other.pixel place) :
    picture.pixels = other.pixels := by
  apply List.ext_getElem?
  intro i
  rcases Nat.lt_or_ge i (w * h * 4) with hi | hi
  · have hw : 0 < w := by
      rcases Nat.eq_zero_or_pos w with rfl | hw
      · omega
      · exact hw
    have hRow : i / 4 / w < h := by
      rw [Nat.div_div_eq_div_mul]
      apply Nat.div_lt_of_lt_mul
      rwa [Nat.mul_comm 4 w, Nat.mul_right_comm]
    have hSame : pixelAt w picture.pixels (i / 4 % w) (i / 4 / w) = pixelAt w other.pixels (i / 4 % w) (i / 4 / w) :=
      hPixel (⟨i / 4 % w, Nat.mod_lt _ hw⟩, ⟨i / 4 / w, hRow⟩)
    have hIndex : i / 4 / w * (w * 4) + (i / 4 % w * 4 + i % 4) = i := by
      have hPixelIndex := Nat.div_add_mod' (i / 4) w
      calc i / 4 / w * (w * 4) + (i / 4 % w * 4 + i % 4) = (i / 4 / w * w + i / 4 % w) * 4 + i % 4 := by ring
        _ = i := by rw [hPixelIndex, Nat.div_add_mod']
    have hCell (bytes : List UInt8) : bytes[i]? = (pixelAt w bytes (i / 4 % w) (i / 4 / w))[i % 4]? := by
      rw [getElem?_pixelAt (Nat.mod_lt i (by decide)), cell, hIndex]
    rw [hCell picture.pixels, hCell other.pixels, hSame]
  · rw [List.getElem?_eq_none (picture.length_pixels.le.trans hi), List.getElem?_eq_none (other.length_pixels.le.trans hi)]

end Places

namespace Moves

variable {w h w' h' w'' h'' : Nat} {picture : Picture w h}

theorem refl (picture : Picture w h) : Moves picture (Equiv.refl _) picture := fun _ => rfl

theorem trans {move : Place w h ≃ Place w' h'} {next : Place w' h' ≃ Place w'' h''} {mid : Picture w' h'}
    {out : Picture w'' h''} (hMove : Moves picture move mid) (hNext : Moves mid next out) :
    Moves picture (move.trans next) out := fun place => (hNext (move place)).trans (hMove place)

/-- Where the pixels go settles the picture. -/
theorem unique {move : Place w h ≃ Place w' h'} {out other : Picture w' h'} (hOut : Moves picture move out)
    (hOther : Moves picture move other) : out.image = other.image := by
  have hPixels : out.pixels = other.pixels := by
    apply pixels_ext
    intro place
    have hSame := (hOut (move.symm place)).trans (hOther (move.symm place)).symm
    rwa [Equiv.apply_symm_apply] at hSame
  rw [Picture.image, hPixels, Picture.image]

end Moves

/-! ## The turns -/

section Turns

variable {w h : Nat}

theorem area_move (rotation : Rotation) (w h : Nat) : rotation.outWidth w h * rotation.outHeight w h = w * h := by
  cases rotation with
  | half => rfl
  | clockwise => exact Nat.mul_comm h w
  | counterClockwise => exact Nat.mul_comm h w

theorem minus_rev {n : Nat} (i : Fin n) : (do minus (← minus n 1) i.val) = .ok i.rev.val := by
  have hLast : i.val ≤ n - 1 := by omega
  rw [bind_of_ok (minus_ok (by omega)), minus_ok hLast, Fin.val_rev]
  congr 1
  omega

theorem target_eq (rotation : Rotation) (place : Place w h) :
    rotation.target w h place.1 place.2 = .ok ((rotation.move w h place).1.val, (rotation.move w h place).2.val) := by
  have hColumn := minus_rev place.1
  have hRow := minus_rev place.2
  cases rotation with
  | clockwise =>
    rw [Rotation.target, ← bind_assoc, bind_of_ok hRow]
    rfl
  | counterClockwise =>
    rw [Rotation.target, ← bind_assoc, bind_of_ok hColumn]
    rfl
  | half =>
    rw [Rotation.target, ← bind_assoc, bind_of_ok hColumn, ← bind_assoc, bind_of_ok hRow]
    rfl

/-- A step copies its pixel to where the permutation takes it. -/
theorem turnPixel_eq (picture : Picture w h) (rotation : Rotation) (place : Place w h) {pixels : List UInt8}
    (hPixels : pixels.length = w * h * 4) :
    turnPixel picture.image rotation place.2 pixels place.1 =
      .ok (overwrite pixels
        (((rotation.move w h place).2.val * rotation.outWidth w h + (rotation.move w h place).1.val) * 4)
        (picture.pixel place)) := by
  have hFits := picture.fits
  have hSource := place_end_le place
  have hTarget := place_end_le (rotation.move w h place)
  rw [area_move] at hTarget
  have hSlice : slice picture.pixels ((place.2.val * w + place.1.val) * 4) ((place.2.val * w + place.1.val) * 4 + 4) =
      .ok (picture.pixel place) := by
    rw [slice_ok (Nat.le_add_right _ _) (by rwa [picture.length_pixels]), List.drop_take, Nat.add_sub_cancel_left]
    rfl
  have hPixel := length_pixel picture place
  have hTo : rotation.target picture.image.width picture.image.height place.1 place.2 =
      .ok ((rotation.move w h place).1.val, (rotation.move w h place).2.val) := target_eq rotation place
  rw [turnPixel, bind_of_ok hTo]
  change (do
    let src ← word ((place.2.val * w + place.1.val) * 4)
    let dst ← word (((rotation.move w h place).2.val * rotation.outWidth w h + (rotation.move w h place).1.val) * 4)
    let pixel ← slice picture.pixels src (← word (src + 4))
    copyFromSlice pixels dst (← word (dst + 4)) pixel) = _
  rw [bind_of_ok (word_ok (by rw [wordSize]; omega)), bind_of_ok (word_ok (by rw [wordSize]; omega)),
    bind_of_ok (word_ok (by rw [wordSize]; omega)), bind_of_ok hSlice, bind_of_ok (word_ok (by rw [wordSize]; omega)),
    copyFromSlice_ok (by rw [hPixel]) (by omega)]

/-- The buffer of a turn whose first pixels have been copied. -/
structure Turned (picture : Picture w h) (rotation : Rotation) (done : Nat) (pixels : List UInt8) : Prop where
  length : pixels.length = w * h * 4
  copied : ∀ place : Place w h, place.2.val * w + place.1.val < done →
    pixelAt (rotation.outWidth w h) pixels (rotation.move w h place).1 (rotation.move w h place).2 = picture.pixel place

theorem Turned.step {picture : Picture w h} {rotation : Rotation} {pixels : List UInt8} (place : Place w h)
    (hTurned : Turned picture rotation (place.2.val * w + place.1.val) pixels) :
    ∃ next, turnPixel picture.image rotation place.2 pixels place.1 = .ok next ∧
      Turned picture rotation (place.2.val * w + place.1.val + 1) next := by
  have hEnd := place_end_le (rotation.move w h place)
  rw [area_move, ← hTurned.length] at hEnd
  have hPixel := length_pixel picture place
  refine ⟨_, turnPixel_eq picture rotation place hTurned.length, ?_, ?_⟩
  · rw [length_overwrite (by rw [hPixel]; exact hEnd), hTurned.length]
  · intro other hOther
    rw [pixelAt_overwrite hPixel (rotation.move w h place).1.isLt hEnd (rotation.move w h other).1.isLt]
    split
    · rename_i hSame
      have hPlace : other = place := by
        apply (rotation.move w h).injective
        exact Prod.ext (Fin.ext hSame.1) (Fin.ext hSame.2)
      rw [hPlace]
    · rename_i hElsewhere
      apply hTurned.copied
      apply Nat.lt_of_le_of_ne (Nat.le_of_lt_succ hOther)
      intro hIndex
      apply hElsewhere
      rw [place_eq_of_index hIndex]
      exact ⟨rfl, rfl⟩

theorem Turned.rows {picture : Picture w h} {rotation : Rotation} {pixels : List UInt8}
    (hTurned : Turned picture rotation 0 pixels) :
    ∃ last, (List.range picture.image.height).foldlM
        (fun pixels y => (List.range picture.image.width).foldlM (turnPixel picture.image rotation y) pixels) pixels =
          .ok last ∧
      Turned picture rotation (h * w) last := by
  apply foldlM_range fun y => Turned picture rotation (y * w)
  · intro y hy row hRow
    have hColumns : ∃ last, (List.range w).foldlM (turnPixel picture.image rotation y) row = .ok last ∧
        Turned picture rotation (y * w + w) last := by
      refine foldlM_range (fun x => Turned picture rotation (y * w + x)) ?_ hRow
      intro x hx value hValue
      exact Turned.step (⟨x, hx⟩, ⟨y, hy⟩) hValue
    rwa [← Nat.succ_mul] at hColumns
  · rwa [Nat.zero_mul]

/-- A turn goes through, and takes each pixel where it should. -/
theorem rotate_realises (rotation : Rotation) : Realises (rotate · rotation) (rotation.move w h) := by
  intro picture
  have hStart : Turned picture rotation 0 (List.replicate picture.image.pixels.length 0) :=
    ⟨List.length_replicate.trans picture.length_pixels, fun _ hNone => absurd hNone (Nat.not_lt_zero _)⟩
  obtain ⟨pixels, hLoop, hTurned⟩ := hStart.rows
  have hWidth : rotation.outWidth w h < 2 ^ 32 := by
    cases rotation with
    | half => exact picture.width_lt
    | clockwise => exact picture.height_lt
    | counterClockwise => exact picture.height_lt
  have hHeight : rotation.outHeight w h < 2 ^ 32 := by
    cases rotation with
    | half => exact picture.height_lt
    | clockwise => exact picture.width_lt
    | counterClockwise => exact picture.width_lt
  refine ⟨⟨pixels, ?_, ?_, hWidth, hHeight⟩, ?_, ?_⟩
  · rw [area_move]
    exact hTurned.length
  · rw [area_move]
    exact picture.fits
  · change rotate picture.image rotation = _
    rw [rotate, bind_of_ok hLoop]
    change Except.ok (Image.mk (rotation.outWidth w h % 2 ^ 32) (rotation.outHeight w h % 2 ^ 32) pixels) = _
    rw [Nat.mod_eq_of_lt hWidth, Nat.mod_eq_of_lt hHeight]
    rfl
  · intro place
    have hEnd : place.2.val * w + place.1.val + 1 ≤ h * w := row_end_le place.1.isLt place.2.isLt
    exact hTurned.copied place hEnd

end Turns

/-! ## The flip -/

section Flip

variable {w h : Nat}

/-- The buffer of a flip that has come to row `done` from above and below. -/
structure Flipped (picture : Picture w h) (done : Nat) (pixels : List UInt8) : Prop where
  length : pixels.length = w * h * 4
  swapped : ∀ c < w * 4, ∀ y < h,
    cell (w * 4) pixels c y = cell (w * 4) picture.pixels c (if y < done ∨ h - done ≤ y then h - 1 - y else y)

/-- Two rows change places. -/
theorem swapRows_eq {pixels : List UInt8} {y : Nat} (hPixels : pixels.length = w * h * 4) (hFits : w * h * 4 < 2 ^ 63)
    (hy : y < h / 2) :
    swapRows h (w * 4) pixels y = .ok (overwrite
      (overwrite pixels (y * (w * 4)) ((pixels.drop ((h - 1 - y) * (w * 4))).take (w * 4)))
      ((h - 1 - y) * (w * 4)) ((pixels.drop (y * (w * 4))).take (w * 4))) := by
  have hStop : (y + 1) * (w * 4) = y * (w * 4) + w * 4 := Nat.succ_mul y (w * 4)
  obtain ⟨hAbove, hLast⟩ : (y + 1) * (w * 4) ≤ (h - 1 - y) * (w * 4) ∧ (h - 1 - y) * (w * 4) + w * 4 ≤ pixels.length := by
    constructor
    · exact Nat.mul_le_mul_right _ (by omega)
    · rw [hPixels, ← Nat.succ_mul, Nat.mul_comm w h, Nat.mul_assoc]
      exact Nat.mul_le_mul_right _ (by omega)
  have hBelow : (do minus (← minus h 1) y) = .ok (h - 1 - y) := by
    rw [bind_of_ok (minus_ok (by omega)), minus_ok (by omega)]
  rw [swapRows, ← bind_assoc, hBelow, bind_of_ok rfl]
  generalize (h - 1 - y) * (w * 4) = mid at hAbove hLast ⊢
  obtain ⟨top, bottom, rfl, rfl⟩ : ∃ top bottom, pixels = top ++ bottom ∧ mid = top.length :=
    ⟨pixels.take mid, pixels.drop mid, (List.take_append_drop mid pixels).symm, by rw [List.length_take]; omega⟩
  rw [List.length_append] at hLast hPixels
  have hUpper : slice top (y * (w * 4)) ((y + 1) * (w * 4)) = .ok ((top.drop (y * (w * 4))).take (w * 4)) := by
    rw [slice_ok (by omega) hAbove, List.drop_take, hStop, Nat.add_sub_cancel_left]
  have hLower : slice bottom 0 (w * 4) = .ok (bottom.take (w * 4)) := slice_ok (Nat.zero_le _) (by omega)
  have hUpperLength : ((top.drop (y * (w * 4))).take (w * 4)).length = w * 4 := by
    rw [List.length_take, List.length_drop]
    omega
  have hLowerLength : (bottom.take (w * 4)).length = w * 4 := List.length_take_of_le (by omega)
  have hTop : slice (top ++ bottom) 0 top.length = .ok top :=
    slice_append (show top ++ bottom = [] ++ top ++ bottom from rfl) rfl (Nat.zero_add _).symm
  have hBottom : slice (top ++ bottom) top.length (top ++ bottom).length = .ok bottom :=
    slice_append (List.append_nil _).symm rfl List.length_append
  rw [bind_of_ok (word_ok (by rw [wordSize]; omega)), bind_of_ok hTop, bind_of_ok hBottom, bind_of_ok (word_ok (by rw [wordSize]; omega)),
    bind_of_ok (word_ok (by rw [wordSize]; omega)), bind_of_ok hUpper, bind_of_ok hLower,
    bind_of_ok (copyFromSlice_ok (by omega) hAbove), bind_of_ok (copyFromSlice_ok (by omega) (by omega))]
  rw [List.drop_left, List.drop_append_of_le_length (by omega), List.take_append_of_le_length (by rw [List.length_drop]; omega),
    overwrite_append_left (by omega)]
  have hSame : (overwrite top (y * (w * 4)) (bottom.take (w * 4))).length = top.length := length_overwrite (by omega)
  rw [← hSame, overwrite_append_right]
  rfl

theorem Flipped.step {picture : Picture w h} {pixels : List UInt8} {y : Nat} (hy : y < h / 2)
    (hFlipped : Flipped picture y pixels) :
    ∃ next, swapRows h (w * 4) pixels y = .ok next ∧ Flipped picture (y + 1) next := by
  have hPixels : pixels.length = h * (w * 4) := by
    rw [hFlipped.length]
    ring
  have hRow (row : Nat) (hRow : row < h) : ((pixels.drop (row * (w * 4))).take (w * 4)).length = w * 4 ∧
      row * (w * 4) + w * 4 ≤ pixels.length := by
    refine ⟨length_row hPixels hRow, ?_⟩
    rw [hPixels]
    exact row_end_le (Nat.zero_add _).le hRow
  obtain ⟨hUpper, hUpperEnd⟩ := hRow y (by omega)
  obtain ⟨hLower, hLowerEnd⟩ := hRow (h - 1 - y) (by omega)
  have hLength : (overwrite pixels (y * (w * 4)) ((pixels.drop ((h - 1 - y) * (w * 4))).take (w * 4))).length =
      pixels.length := length_overwrite (by rwa [hLower])
  refine ⟨_, swapRows_eq hFlipped.length picture.fits hy, ?_, ?_⟩
  · rw [length_overwrite (by rwa [hUpper, hLength]), hLength, hFlipped.length]
  · intro c hc row hRow
    rw [cell_overwrite_row hUpper (by rwa [hLength]) hc, cell_overwrite_row hLower hUpperEnd hc, getElem?_row hc,
      getElem?_row hc, hFlipped.swapped c hc y (by omega), hFlipped.swapped c hc (h - 1 - y) (by omega),
      hFlipped.swapped c hc row hRow]
    split
    · rename_i hLowerRow
      rw [if_neg (by omega), if_pos (by omega), hLowerRow]
      congr 1
      omega
    · rename_i hElsewhere
      split
      · rename_i hUpperRow
        rw [if_neg (by omega), if_pos (by omega), hUpperRow]
      · rename_i hApart
        congr 1
        refine if_congr ?_ rfl rfl
        omega

theorem flipVertical_realises : Realises flipVertical (Place.upsideDown w h) := by
  intro picture
  have hStart : Flipped picture 0 picture.image.pixels := by
    refine ⟨picture.length_pixels, ?_⟩
    intro c hc y hy
    rw [if_neg (by omega)]
    rfl
  obtain ⟨pixels, hLoop, hFlipped⟩ : ∃ pixels,
      (List.range (picture.image.height / 2)).foldlM (swapRows picture.image.height (w * 4)) picture.image.pixels =
          .ok pixels ∧
        Flipped picture (h / 2) pixels := by
    refine foldlM_range (Flipped picture) ?_ hStart
    intro y hy value hValue
    exact hValue.step hy
  refine ⟨⟨pixels, hFlipped.length, picture.fits, picture.width_lt, picture.height_lt⟩, ?_, ?_⟩
  · have hRow : word (picture.image.width * 4) = .ok (w * 4) := by
      have hWidth := picture.width_lt
      apply word_ok
      change w * 4 < wordSize
      rw [wordSize]
      omega
    rw [flipVertical, bind_of_ok hRow, bind_of_ok hLoop]
    rfl
  · intro place
    apply pixelAt_congr
    intro c hC
    have hColumn : place.1.val * 4 + c < w * 4 := by omega
    rw [Place.upsideDown_apply, hFlipped.swapped _ hColumn _ place.2.rev.isLt, Fin.val_rev]
    congr 1
    split
    · omega
    · omega

end Flip

/-! ## How they compose -/

namespace Realises

variable {w h w' h' w'' h'' : Nat} {first second : Image → Except Halt Image}

theorem refl : Realises .ok (Equiv.refl (Place w h)) := fun picture => ⟨picture, rfl, .refl picture⟩

theorem trans {move : Place w h ≃ Place w' h'} {next : Place w' h' ≃ Place w'' h''} (hFirst : Realises first move)
    (hSecond : Realises second next) : Realises (fun image => first image >>= second) (move.trans next) := by
  intro picture
  obtain ⟨mid, hMid, hMoves⟩ := hFirst picture
  obtain ⟨out, hOut, hNext⟩ := hSecond mid
  exact ⟨out, (bind_of_ok hMid second).trans hOut, hMoves.trans hNext⟩

/-- Two operations that do the same to the places do the same to a picture. -/
theorem eq {move other : Place w h ≃ Place w' h'} (hFirst : Realises first move) (hSecond : Realises second other)
    (hMove : move = other) (picture : Picture w h) : first picture.image = second picture.image := by
  obtain ⟨out, hOut, hMoves⟩ := hFirst picture
  obtain ⟨same, hSame, hSameMoves⟩ := hSecond picture
  rw [hOut, hSame, Moves.unique hMoves (hMove ▸ hSameMoves)]

end Realises

/-- The turns and the flip go through for every size, lead each pixel to a place of its own in an image of the size they
report, and compose as the symmetries of a rectangle do. -/
theorem turns_compose (w h : Nat) :
    (∀ rotation : Rotation, Realises (rotate · rotation) (rotation.move w h)) ∧
    Realises flipVertical (Place.upsideDown w h) ∧
    ∀ picture : Picture w h,
      (rotate picture.image .clockwise >>= (rotate · .counterClockwise)) = .ok picture.image ∧
      (rotate picture.image .counterClockwise >>= (rotate · .clockwise)) = .ok picture.image ∧
      (rotate picture.image .clockwise >>= (rotate · .clockwise)) = rotate picture.image .half ∧
      (rotate picture.image .half >>= (rotate · .half)) = .ok picture.image ∧
      flipVertical picture.image >>= flipVertical = .ok picture.image ∧
      (flipVertical picture.image >>= (rotate · .clockwise)) >>= flipVertical = rotate picture.image .counterClockwise := by
  have hTurn {w h : Nat} (rotation : Rotation) : Realises (rotate · rotation) (rotation.move w h) := rotate_realises rotation
  have hFlip {w h : Nat} : Realises flipVertical (Place.upsideDown w h) := flipVertical_realises
  refine ⟨hTurn, hFlip, ?_⟩
  intro picture
  refine ⟨?_, ?_, ?_, ?_, ?_, ?_⟩
  · exact ((hTurn .clockwise).trans (hTurn .counterClockwise)).eq .refl Place.clockwise_counterClockwise picture
  · exact ((hTurn .counterClockwise).trans (hTurn .clockwise)).eq .refl Place.counterClockwise_clockwise picture
  · exact ((hTurn .clockwise).trans (hTurn .clockwise)).eq (hTurn .half) Place.clockwise_clockwise picture
  · exact ((hTurn .half).trans (hTurn .half)).eq .refl Place.half_half picture
  · exact (hFlip.trans hFlip).eq .refl Place.upsideDown_upsideDown picture
  · exact ((hFlip.trans (hTurn .clockwise)).trans hFlip).eq (hTurn .counterClockwise)
      Place.upsideDown_clockwise_upsideDown picture

/-! ## The exported image -/

theorem Realises.yields {w h w' h' : Nat} {operation : Image → Except Halt Image} {move : Place w h ≃ Place w' h'}
    (hOperation : Realises operation move) (picture : Picture w h) :
    Yields (operation picture.image) fun image => ∃ out : Picture w' h', image = out.image := by
  obtain ⟨out, hOut, -⟩ := hOperation picture
  rw [hOut]
  exact ⟨out, rfl⟩

/-- An orientation is a turn, or it is refused. -/
theorem orient_yields {w h : Nat} (picture : Picture w h) (orientation : Int) :
    Yields (orient picture.image orientation) fun image =>
      (∃ out : Picture w h, image = out.image) ∨ ∃ out : Picture h w, image = out.image := by
  have hTurn (rotation : Rotation) : Yields (rotate picture.image rotation) fun image =>
      ∃ out : Picture (rotation.outWidth w h) (rotation.outHeight w h), image = out.image :=
    (rotate_realises rotation).yields picture
  unfold orient
  split
  · exact .inl ⟨picture, rfl⟩
  · exact (hTurn .half).imp fun image hImage => .inl hImage
  · exact (hTurn .counterClockwise).imp fun image hImage => .inr hImage
  · exact (hTurn .clockwise).imp fun image hImage => .inr hImage
  · exact ⟨_, rfl⟩

/-- Whatever the archive holds and whatever orientation it names, no index leaves a buffer on the way to the export. -/
theorem oriented_yields {zip : Zip} {document : Document}
    (hShort : ∀ name compressed, zip.byName name = .ok (.ok compressed) → compressed.length < 2 ^ 50)
    (visiting : List Tile) (orientation : Int) :
    Yields (oriented zip document visiting orientation) fun image =>
      (∃ out : Picture document.width document.height, image = out.image) ∨
        ∃ out : Picture document.height document.width, image = out.image := by
  apply Yields.bind (assemble_yields hShort visiting)
  rintro ⟨w, h, pixels⟩ ⟨hWidth, hHeight, hPixels⟩
  cases hWidth
  cases hHeight
  have hWidthLe := document.width_mem.2
  have hHeightLe := document.height_mem.2
  have hArea : document.width * document.height ≤ maxSide * maxSide := Nat.mul_le_mul hWidthLe hHeightLe
  rw [maxSide] at hWidthLe hHeightLe hArea
  obtain ⟨out, hOut, -⟩ := flipVertical_realises (w := document.width) (h := document.height)
    ⟨pixels, hPixels, by omega, by omega, by omega⟩
  change flipVertical ⟨document.width, document.height, pixels⟩ = _ at hOut
  rw [bind_of_ok hOut]
  exact orient_yields out orientation

/-- The number that a document has for a turn. -/
def Rotation.orientation : Rotation → Int
  | .half => 2
  | .counterClockwise => 3
  | .clockwise => 4

theorem orient_orientation (image : Image) (rotation : Rotation) : orient image rotation.orientation = rotate image rotation := by
  cases rotation <;> rfl

/-- Where the places of a canvas come to lie in the export. The canvas is stored upside down. -/
inductive Exports (w h : Nat) : {w' h' : Nat} → Int → (Place w h ≃ Place w' h') → Prop
  | upright : Exports w h 1 (Place.upsideDown w h)
  | turned (rotation : Rotation) : Exports w h rotation.orientation ((Place.upsideDown w h).trans (rotation.move w h))

theorem Exports.realises {w h w' h' : Nat} {orientation : Int} {move : Place w h ≃ Place w' h'} (hMove : Exports w h orientation move) :
    Realises (fun image => flipVertical image >>= (orient · orientation)) move := by
  cases hMove with
  | upright =>
    intro picture
    obtain ⟨out, hOut, hMoves⟩ := flipVertical_realises picture
    exact ⟨out, bind_of_ok hOut _, hMoves⟩
  | turned rotation =>
    have hSame : (orient · rotation.orientation) = (rotate · rotation) := funext fun image => orient_orientation image rotation
    rw [hSame]
    exact flipVertical_realises.trans (rotate_realises rotation)

theorem orient_ne_ok {orientation : Int} (hUnknown : orientation < 1 ∨ 4 < orientation) (picture image : Image) :
    orient picture orientation ≠ .ok image := by
  unfold orient
  split
  · omega
  · omega
  · omega
  · omega
  · intro hOk
    cases hOk

section Export

variable {zip : Zip} {document : Document} {raw : Tile → List UInt8} {visiting : List Tile}

theorem assembled_picture (hVisiting : visiting.Perm (tiles zip document)) (hReadable : Readable zip document raw)
    (hTiles : tiles zip document ≠ []) :
    ∃ picture : Picture document.width document.height,
      assemble zip document visiting = .ok picture.image ∧ Shows zip document raw picture.image := by
  have hVisited : visiting.isEmpty = false := by
    rw [List.isEmpty_eq_false_iff]
    rintro rfl
    exact hTiles hVisiting.nil_eq.symm
  have hDistinct : (visiting.map fun tile => (tile.col, tile.row)).Nodup := (hVisiting.map _).nodup_iff.mpr hReadable.distinct
  obtain ⟨pixels, hPaints, hPainted⟩ := (painted_nil document raw).visits
    (fun tile hTile => hReadable.inside tile (hVisiting.mem_iff.mp hTile))
    (fun tile hTile => hReadable.decodes tile (hVisiting.mem_iff.mp hTile)) hDistinct
  have hShows := hPainted.shows hVisiting
  have hWidth := document.width_mem.2
  have hHeight := document.height_mem.2
  have hArea : document.width * document.height ≤ maxSide * maxSide := Nat.mul_le_mul hWidth hHeight
  rw [maxSide] at hWidth hHeight hArea
  refine ⟨⟨unpremultiply pixels, hShows.size, by omega, by omega, by omega⟩, ?_, hShows⟩
  rw [assemble, bind_of_ok (word_ok (canvas_lt document)), hVisited, if_neg Bool.false_ne_true, bind_of_ok hPaints]
  rfl

/-- The export shows every tile of the layer in its place, whatever the orientation and in whatever order the tiles are visited, and
no index leaves a buffer on the way. -/
theorem oriented_shows (hVisiting : visiting.Perm (tiles zip document)) (orientation : Int) :
    ((∀ name compressed, zip.byName name = .ok (.ok compressed) → compressed.length < 2 ^ 50) →
        ∀ e, oriented zip document visiting orientation = .error e → ∃ message, e = .error message) ∧
      (orientation < 1 ∨ 4 < orientation → ∀ image, oriented zip document visiting orientation ≠ .ok image) ∧
      ∀ raw, Readable zip document raw → tiles zip document ≠ [] →
        ∀ {w h : Nat} (move : Place document.width document.height ≃ Place w h),
          Exports document.width document.height orientation move →
            ∃ out : Picture w h, oriented zip document visiting orientation = .ok out.image ∧
              (∀ tile ∈ tiles zip document, ∀ place : Place document.width document.height,
                Covers document tile place.1 place.2 →
                  out.pixel (move place) = unpremultiply (pixelAt (document.tileWidth tile) (raw tile)
                    (place.1 % document.tileSize) (place.2 % document.tileSize))) ∧
              ∀ place : Place document.width document.height,
                (∀ tile ∈ tiles zip document, ¬ Covers document tile place.1 place.2) → out.pixel (move place) = [0, 0, 0, 0] := by
  refine ⟨?_, ?_, ?_⟩
  · intro hShort e hError
    exact (oriented_yields hShort visiting orientation).error hError
  · intro hUnknown image hImage
    rw [oriented] at hImage
    obtain ⟨composite, -, hFlip⟩ := Fallible.bind_eq_ok hImage
    obtain ⟨flipped, -, hOrient⟩ := Fallible.bind_eq_ok hFlip
    exact orient_ne_ok hUnknown flipped image hOrient
  · intro raw hReadable hTiles w h move hExports
    obtain ⟨picture, hAssemble, hShows⟩ := assembled_picture hVisiting hReadable hTiles
    obtain ⟨out, hOut, hMoves⟩ := hExports.realises picture
    refine ⟨out, (bind_of_ok hAssemble _).trans hOut, ?_, ?_⟩
    · intro tile hTile place hCovers
      exact (hMoves place).trans (hShows.shown tile hTile place.1 place.2 place.1.isLt place.2.isLt hCovers)
    · intro place hNone
      exact (hMoves place).trans (hShows.blank place.1 place.2 place.1.isLt place.2.isLt hNone)

end Export

theorem oriented_shows_strip :
    ∃ out : Picture 1 17, oriented stripZip strip (tiles stripZip strip).reverse 4 = .ok out.image ∧
      out.pixel (0, 16) = unpremultiply [10, 20, 30, 100] := by
  obtain ⟨-, -, hShows⟩ := oriented_shows (List.reverse_perm (tiles stripZip strip)) 4
  obtain ⟨out, hOut, hShown, -⟩ := hShows stripTile readable_strip (by rw [tiles_strip]; decide) _ (.turned .clockwise)
  refine ⟨out, hOut, ?_⟩
  have hTile : (⟨"A/1~0.chunk".toList, 1, 0⟩ : Tile) ∈ tiles stripZip strip := by
    rw [tiles_strip]
    exact List.mem_cons_of_mem _ List.mem_cons_self
  exact hShown _ hTile (⟨16, by decide⟩, ⟨0, by decide⟩) (by decide)

end Pigeon.Transform.Procreate
