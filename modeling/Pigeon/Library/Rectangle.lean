import Mathlib

/-! # The symmetries of a rectangle

A turn or a flip takes the places of one rectangle to those of another, each to its own.
-/
namespace Pigeon.Library

set_option autoImplicit false

/-- A column and a row, counted from the top left. -/
abbrev Place (width height : Nat) : Type := Fin width × Fin height

namespace Place

variable (width height : Nat)

def clockwise : Place width height ≃ Place height width :=
  (Equiv.prodComm _ _).trans (Fin.revPerm.prodCongr (Equiv.refl _))

def counterClockwise : Place width height ≃ Place height width := (clockwise height width).symm

def half : Place width height ≃ Place width height := Fin.revPerm.prodCongr Fin.revPerm

def upsideDown : Place width height ≃ Place width height := (Equiv.refl _).prodCongr Fin.revPerm

variable {width height}

theorem clockwise_apply (place : Place width height) : clockwise width height place = (place.2.rev, place.1) := rfl

theorem counterClockwise_apply (place : Place width height) :
    counterClockwise width height place = (place.2, place.1.rev) := rfl

theorem half_apply (place : Place width height) : half width height place = (place.1.rev, place.2.rev) := rfl

theorem upsideDown_apply (place : Place width height) : upsideDown width height place = (place.1, place.2.rev) := rfl

theorem clockwise_counterClockwise :
    (clockwise width height).trans (counterClockwise height width) = Equiv.refl (Place width height) :=
  Equiv.self_trans_symm _

theorem counterClockwise_clockwise :
    (counterClockwise width height).trans (clockwise height width) = Equiv.refl (Place width height) :=
  Equiv.symm_trans_self _

theorem clockwise_clockwise : (clockwise width height).trans (clockwise height width) = half width height := by
  apply Equiv.ext
  intro place
  rw [Equiv.trans_apply, clockwise_apply, clockwise_apply, half_apply]

theorem half_half : (half width height).trans (half width height) = Equiv.refl (Place width height) := by
  apply Equiv.ext
  intro place
  rw [Equiv.trans_apply, half_apply, half_apply, Fin.rev_rev, Fin.rev_rev, Equiv.refl_apply]

theorem upsideDown_upsideDown :
    (upsideDown width height).trans (upsideDown width height) = Equiv.refl (Place width height) := by
  apply Equiv.ext
  intro place
  rw [Equiv.trans_apply, upsideDown_apply, upsideDown_apply, Fin.rev_rev, Equiv.refl_apply]

/-- A flip before a turn and one after it reverse the turn. -/
theorem upsideDown_clockwise_upsideDown :
    ((upsideDown width height).trans (clockwise width height)).trans (upsideDown height width) =
      counterClockwise width height := by
  apply Equiv.ext
  intro place
  rw [Equiv.trans_apply, Equiv.trans_apply, upsideDown_apply, clockwise_apply, upsideDown_apply, counterClockwise_apply,
    Fin.rev_rev]

end Place

end Pigeon.Library
