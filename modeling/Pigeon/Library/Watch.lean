import Mathlib

/-! # A watch channel

One stored value with a version, written by a single sender. A receiver remembers the
version it saw last, and waiting for a change ends once the version differs from it.
-/
namespace Pigeon.Library

set_option autoImplicit false

structure Watch (ρ α : Type*) where
  value : α
  version : Nat
  receivers : List ρ
  seen : ρ → Nat

namespace Watch

variable {ρ α : Type*}

/-- A new sender has no receiver. -/
def new (value : α) : Watch ρ α := ⟨value, 0, [], fun _ => 0⟩

/-- Sending fails, and stores nothing, when no receiver is alive. -/
def send (w : Watch ρ α) (value : α) : Watch ρ α :=
  if w.receivers.isEmpty then w else { w with value := value, version := w.version + 1 }

@[simp] theorem receivers_send (w : Watch ρ α) (v : α) : (w.send v).receivers = w.receivers := by
  rw [send]
  split <;> rfl

@[simp] theorem seen_send (w : Watch ρ α) (v : α) : (w.send v).seen = w.seen := by
  rw [send]
  split <;> rfl

/-- The stored value is the sent one afterwards: somebody receives it, or it was stored already. -/
def Lands (w : Watch ρ α) (v : α) : Prop := w.receivers ≠ [] ∨ w.value = v

theorem value_send_of_lands {w : Watch ρ α} {v : α} (h : w.Lands v) : (w.send v).value = v := by
  rw [send]
  split
  · rename_i hEmpty
    exact h.resolve_left (fun hNonempty => hNonempty (List.isEmpty_iff.mp hEmpty))
  · rfl

theorem send_of_not_lands {w : Watch ρ α} {v : α} (h : ¬ w.Lands v) : w.send v = w := by
  have hEmpty : w.receivers = [] := not_not.mp (fun hNonempty => h (.inl hNonempty))
  rw [send, hEmpty]
  rfl

theorem version_le_version_send (w : Watch ρ α) (v : α) : w.version ≤ (w.send v).version := by
  rw [send]
  split
  · exact Nat.le_refl _
  · exact Nat.le_succ _

theorem version_send_of_mem {w : Watch ρ α} {r : ρ} (v : α) (h : r ∈ w.receivers) :
    (w.send v).version = w.version + 1 := by
  rw [send, if_neg]
  intro hEmpty
  rw [List.isEmpty_iff.mp hEmpty] at h
  cases h

section Receivers

variable [DecidableEq ρ]

/-- A new receiver counts everything sent before as seen. -/
def subscribe (w : Watch ρ α) (r : ρ) : Watch ρ α :=
  { w with receivers := r :: w.receivers, seen := Function.update w.seen r w.version }

def borrowAndUpdate (w : Watch ρ α) (r : ρ) : Watch ρ α :=
  { w with seen := Function.update w.seen r w.version }

def drop (w : Watch ρ α) (r : ρ) : Watch ρ α :=
  { w with receivers := w.receivers.erase r }

@[simp] theorem value_subscribe (w : Watch ρ α) (r : ρ) : (w.subscribe r).value = w.value := rfl

@[simp] theorem value_borrowAndUpdate (w : Watch ρ α) (r : ρ) :
    (w.borrowAndUpdate r).value = w.value := rfl

@[simp] theorem value_drop (w : Watch ρ α) (r : ρ) : (w.drop r).value = w.value := rfl

@[simp] theorem version_subscribe (w : Watch ρ α) (r : ρ) : (w.subscribe r).version = w.version := rfl

@[simp] theorem version_borrowAndUpdate (w : Watch ρ α) (r : ρ) :
    (w.borrowAndUpdate r).version = w.version := rfl

@[simp] theorem version_drop (w : Watch ρ α) (r : ρ) : (w.drop r).version = w.version := rfl

@[simp] theorem receivers_subscribe (w : Watch ρ α) (r : ρ) :
    (w.subscribe r).receivers = r :: w.receivers := rfl

@[simp] theorem receivers_borrowAndUpdate (w : Watch ρ α) (r : ρ) :
    (w.borrowAndUpdate r).receivers = w.receivers := rfl

@[simp] theorem receivers_drop (w : Watch ρ α) (r : ρ) :
    (w.drop r).receivers = w.receivers.erase r := rfl

theorem seen_subscribe (w : Watch ρ α) (r q : ρ) :
    (w.subscribe r).seen q = if q = r then w.version else w.seen q :=
  Function.update_apply w.seen r w.version q

theorem seen_borrowAndUpdate (w : Watch ρ α) (r q : ρ) :
    (w.borrowAndUpdate r).seen q = if q = r then w.version else w.seen q :=
  Function.update_apply w.seen r w.version q

end Receivers

/-- Whether waiting for a change can end now. -/
def hasChanged (w : Watch ρ α) (r : ρ) : Bool := w.seen r != w.version

end Watch

end Pigeon.Library
