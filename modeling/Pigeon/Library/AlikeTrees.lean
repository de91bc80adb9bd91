import Pigeon.Library.FileTree

/-! # Trees that differ in contents only

Two trees are alike when they have the same directories and files, and the contents of each file are related. What
the operations do depends on names alone, so they keep trees alike.
-/
namespace Pigeon.Library

set_option autoImplicit false

variable {β γ : Type*} {same : β → γ → Prop}

inductive NodesAlike (same : β → γ → Prop) : Option (Node β) → Option (Node γ) → Prop where
  | absent : NodesAlike same none none
  | dir : NodesAlike same (some .dir) (some .dir)
  | file {content : β} {other : γ} (hSame : same content other) :
    NodesAlike same (some (.file content)) (some (.file other))

namespace FileTree

def Alike (same : β → γ → Prop) (s : FileTree β) (t : FileTree γ) : Prop :=
  ∀ path, NodesAlike same (s.lookup path) (t.lookup path)

theorem Alike.refl {same : β → β → Prop} (hSame : ∀ content, same content content) (s : FileTree β) :
    Alike same s s := by
  intro path
  cases s.lookup path with
  | none => exact .absent
  | some node =>
    cases node with
    | dir => exact .dir
    | file content => exact .file (hSame content)

theorem Alike.contains {s : FileTree β} {t : FileTree γ} (h : Alike same s t) (path : Path) :
    s.contains path = t.contains path := by
  rw [FileTree.contains, FileTree.contains]
  have hNodes := h path
  generalize s.lookup path = node at hNodes
  generalize t.lookup path = other at hNodes
  cases hNodes with
  | absent => rfl
  | dir => rfl
  | file _ => rfl

theorem Alike.put {s : FileTree β} {t : FileTree γ} (h : Alike same s t) {path : Path} (hPath : path ≠ [])
    {node : Node β} {other : Node γ} (hNode : NodesAlike same (some node) (some other)) : Alike same (s.put path node) (t.put path other) := by
  intro asked
  rw [lookup_put s node hPath, lookup_put t other hPath]
  split
  · exact hNode
  · exact h asked

theorem Alike.createDirsUnder {s : FileTree β} {t : FileTree γ} (h : Alike same s t) (made path : Path) :
    Option.Rel (Alike same) (s.createDirsUnder made path) (t.createDirsUnder made path) := by
  induction path generalizing s t made with
  | nil => exact .some h
  | cons name rest ih =>
    rw [FileTree.createDirsUnder, FileTree.createDirsUnder]
    cases hS : s.lookup (made ++ [name]) with
    | none =>
      have hNodes := h (made ++ [name])
      rw [hS] at hNodes
      generalize t.lookup (made ++ [name]) = node at hNodes
      cases hNodes with
      | absent =>
        dsimp only
        split
        · exact .none
        · exact ih (h.put (by simp) .dir) _
    | some node =>
      have hNodes := h (made ++ [name])
      rw [hS] at hNodes
      generalize t.lookup (made ++ [name]) = other at hNodes
      cases hNodes with
      | dir => exact ih h _
      | file hSame => exact .none

theorem Alike.createDirAll {s : FileTree β} {t : FileTree γ} (h : Alike same s t) (path : Path) :
    Option.Rel (Alike same) (s.createDirAll path) (t.createDirAll path) := h.createDirsUnder [] path

theorem Alike.write {s : FileTree β} {t : FileTree γ} (h : Alike same s t) (path : Path) {content : β}
    {other : γ} (hSame : same content other) : Option.Rel (Alike same) (s.write path content) (t.write path other) := by
  rw [FileTree.write, FileTree.write]
  have hParent := h path.dropLast
  have hNode := h path
  have hPut (hDir : s.lookup path ≠ some .dir) :
      Option.Rel (Alike same) (if hasNul path then none else some (s.put path (.file content)))
        (if hasNul path then none else some (t.put path (.file other))) := by
    split
    · exact .none
    · refine .some (h.put ?_ (.file hSame))
      rintro rfl
      exact hDir (lookup_root s)
  generalize s.lookup path.dropLast = parentS at hParent
  generalize t.lookup path.dropLast = parentT at hParent
  generalize s.lookup path = nodeS at hNode hPut
  generalize t.lookup path = nodeT at hNode
  cases hParent with
  | absent => exact .none
  | file _ => exact .none
  | dir =>
    cases hNode with
    | absent => exact hPut (by simp)
    | dir => exact .none
    | file _ => exact hPut (by simp)

end FileTree

end Pigeon.Library
