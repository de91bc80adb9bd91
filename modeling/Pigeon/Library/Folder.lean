import Pigeon.Library.Text

/-! # Named entries

The files of one directory, or the objects of one bucket: every name stands for one content, and the names
can be listed.
-/
namespace Pigeon.Library

set_option autoImplicit false

structure Folder (β : Type*) where
  entries : List (Text × β)
  nodup : (entries.map Prod.fst).Nodup

namespace Folder

variable {β : Type*}

def empty : Folder β := ⟨[], List.nodup_nil⟩

def names (folder : Folder β) : List Text := folder.entries.map Prod.fst

def lookup (folder : Folder β) (name : Text) : Option β :=
  (folder.entries.find? fun entry => entry.1 == name).map Prod.snd

def remove (folder : Folder β) (name : Text) : Folder β where
  entries := folder.entries.filter fun entry => entry.1 != name
  nodup := folder.nodup.sublist (List.filter_sublist.map Prod.fst)

def put (folder : Folder β) (name : Text) (content : β) : Folder β where
  entries := (name, content) :: (folder.remove name).entries
  nodup := by
    rw [List.map_cons, List.nodup_cons]
    refine ⟨fun hMem => ?_, (folder.remove name).nodup⟩
    obtain ⟨entry, hEntry, hName⟩ := List.mem_map.mp hMem
    have hOther := (List.mem_filter.mp hEntry).2
    rw [hName, bne_self_eq_false] at hOther
    cases hOther

@[simp]
theorem lookup_empty (name : Text) : (empty : Folder β).lookup name = none := rfl

theorem nodup_names (folder : Folder β) : folder.names.Nodup := folder.nodup

theorem mem_names {folder : Folder β} {name : Text} : name ∈ folder.names ↔ ∃ content, folder.lookup name = some content := by
  rw [names, lookup, List.mem_map]
  constructor
  · rintro ⟨entry, hEntry, rfl⟩
    have hFound : (folder.entries.find? fun other => other.1 == entry.1).isSome :=
      List.find?_isSome.mpr ⟨entry, hEntry, beq_self_eq_true _⟩
    obtain ⟨other, hOther⟩ := Option.isSome_iff_exists.mp hFound
    exact ⟨other.2, by rw [hOther]; rfl⟩
  · rintro ⟨content, hContent⟩
    obtain ⟨entry, hEntry, -⟩ := Option.map_eq_some_iff.mp hContent
    exact ⟨entry, List.mem_of_find?_eq_some hEntry, by simpa using List.find?_some hEntry⟩

theorem lookup_remove_self (folder : Folder β) (name : Text) : (folder.remove name).lookup name = none := by
  rw [lookup, Option.map_eq_none_iff, List.find?_eq_none]
  intro entry hEntry hName
  have hOther := (List.mem_filter.mp hEntry).2
  rw [bne, hName] at hOther
  cases hOther

theorem lookup_remove_of_ne (folder : Folder β) {name other : Text} (h : other ≠ name) :
    (folder.remove name).lookup other = folder.lookup other := by
  rw [lookup, remove, lookup, List.find?_filter]
  congr 2
  funext entry
  cases hOther : entry.1 == other with
  | false => simp
  | true =>
    rw [beq_iff_eq] at hOther
    simp [hOther, h]

theorem lookup_put_self (folder : Folder β) (name : Text) (content : β) :
    (folder.put name content).lookup name = some content := by
  simp only [lookup, put, List.find?_cons, beq_self_eq_true, Option.map_some]

theorem lookup_put_of_ne (folder : Folder β) {name other : Text} (content : β) (h : other ≠ name) :
    (folder.put name content).lookup other = folder.lookup other := by
  rw [← lookup_remove_of_ne folder h]
  simp only [lookup, put, List.find?_cons, beq_false_of_ne h.symm]

theorem lookup_of_put {folder : Folder β} {name other : Text} {content found : β}
    (h : (folder.put name content).lookup other = some found) :
    other = name ∧ found = content ∨ other ≠ name ∧ folder.lookup other = some found := by
  obtain rfl | hOther := eq_or_ne other name
  · rw [lookup_put_self] at h
    exact .inl ⟨rfl, (Option.some.inj h).symm⟩
  · rw [lookup_put_of_ne folder content hOther] at h
    exact .inr ⟨hOther, h⟩

theorem lookup_of_remove {folder : Folder β} {name other : Text} {found : β}
    (h : (folder.remove name).lookup other = some found) : other ≠ name ∧ folder.lookup other = some found := by
  obtain rfl | hOther := eq_or_ne other name
  · rw [lookup_remove_self] at h
    cases h
  · rw [lookup_remove_of_ne folder hOther] at h
    exact ⟨hOther, h⟩

end Folder

end Pigeon.Library
