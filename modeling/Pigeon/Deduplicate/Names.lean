import Pigeon.Deduplicate.Checkpoint

/-! # Names of nested members

A member's key is the key of its archive, a `!` and the name of the member. The name and the extension are found again
behind the last `!` of the whole key, which need not be the one that was put there.
-/
namespace Pigeon.Deduplicate

open Library Pigeon.Core

set_option autoImplicit false

/-- The item of a chain of members, each extracted from the archive before it. -/
def QueueItem.nested (item : QueueItem) (members : List ExtractedMember) : QueueItem := members.foldl QueueItem.member item

/-- The name the item has in its bucket or in its archive. -/
def lastElement (key : Text) (members : List ExtractedMember) : Text := ((members.map (·.name)).getLast?).getD key

/-- The last path segment. A path that has none stands for itself. -/
def ownName (element : Text) : Text := (Text.fileName element).getD element

def ownExtension (element : Text) : Text :=
  match (Text.fileName element).bind fun name => (Text.stemExtension name).2 with
  | some extension => extension.map Char.toLower
  | none => "(none)".toList

/-- What the job makes of an item's key is what it would make of the element alone. -/
structure NamedByElement (w : World) (item : QueueItem) (element : Text) : Prop where
  extension : extensionOf item.displayKey = ownExtension element
  name : ∀ file : HashedFile, file.originalKey = item.displayKey → file.originalName = ownName element
  expanded : isAppleDoubleBasename item.displayKey = false → (item.onDisk || item.downloads w) = true →
    processItem w item = if ownExtension element = "zip".toList then item.expand w else item.hashFile w

/-! ## Keys -/

theorem afterZipSeparator_append {after : Text} (hAfter : '!' ∉ after) (before : Text) :
    afterZipSeparator (before ++ '!' :: after) = after := by
  rw [afterZipSeparator, Text.rsplitOnce_append before hAfter]

theorem afterZipSeparator_spec (key : Text) : '!' ∉ afterZipSeparator key ∧
    (key = afterZipSeparator key ∨ ∃ before, key = before ++ '!' :: afterZipSeparator key) := by
  rw [afterZipSeparator]
  split
  · rename_i before after hSplit
    obtain ⟨hKey, hAfter⟩ := Text.rsplitOnce_eq_some hSplit
    exact ⟨hAfter, .inr ⟨before, hKey⟩⟩
  · rename_i hNone
    exact ⟨Text.not_mem_of_rsplitOnce hNone, .inl rfl⟩

/-- What stands in front of a separator is never looked at. -/
theorem afterZipSeparator_append_cons (before element : Text) :
    afterZipSeparator (before ++ '!' :: element) = afterZipSeparator element := by
  obtain ⟨hFree, hWhole | ⟨front, hSplit⟩⟩ := afterZipSeparator_spec element
  · rw [afterZipSeparator_append (hWhole ▸ hFree), ← hWhole]
  · have hKey : before ++ '!' :: element = (before ++ '!' :: front) ++ '!' :: afterZipSeparator element := by
      rw [List.append_assoc, List.cons_append, ← hSplit]
    rw [hKey, afterZipSeparator_append hFree]

theorem nested_append (item : QueueItem) (members : List ExtractedMember) (last : ExtractedMember) :
    item.nested (members ++ [last]) = (item.nested members).member last :=
  List.foldl_concat QueueItem.member item last members

theorem lastElement_append (key : Text) (members : List ExtractedMember) (last : ExtractedMember) :
    lastElement key (members ++ [last]) = last.name := by
  rw [lastElement, List.map_append, List.map_singleton, List.getLast?_concat, Option.getD_some]

theorem afterZipSeparator_nested (item : QueueItem) (members : List ExtractedMember) :
    afterZipSeparator (item.nested members).displayKey = afterZipSeparator (lastElement item.displayKey members) := by
  cases members using List.reverseRecOn with
  | nil => rfl
  | append_singleton members last =>
    rw [nested_append, lastElement_append]
    exact afterZipSeparator_append_cons _ _

theorem not_mem_ownName {c : Char} {element : Text} (hFree : c ∉ element) : c ∉ ownName element := by
  rw [ownName]
  cases hName : Text.fileName element with
  | none => exact hFree
  | some name => exact fun hMem => hFree (Text.subset_of_fileName hName hMem)

/-- A separator in a directory hides nothing. -/
theorem fileName_afterZipSeparator {element : Text} (hOwn : '!' ∉ ownName element) :
    afterZipSeparator element = element ∨
      ∃ name, Text.fileName element = some name ∧ Text.fileName (afterZipSeparator element) = some name := by
  obtain ⟨-, hWhole | ⟨before, hSplit⟩⟩ := afterZipSeparator_spec element
  · exact .inl hWhole.symm
  · right
    cases hName : Text.fileName element with
    | none =>
      rw [ownName, hName, Option.getD_none, hSplit] at hOwn
      exact absurd (List.mem_append_right before List.mem_cons_self) hOwn
    | some name =>
      rw [ownName, hName, Option.getD_some] at hOwn
      rw [hSplit] at hName
      exact ⟨name, rfl, Text.fileName_of_append_cons (by decide) (by decide) hName hOwn⟩

theorem ownName_afterZipSeparator_iff (element : Text) :
    ownName (afterZipSeparator element) = ownName element ↔ '!' ∉ ownName element := by
  constructor
  · intro hName
    rw [← hName]
    exact not_mem_ownName (afterZipSeparator_spec element).1
  · intro hOwn
    obtain hWhole | ⟨name, hName, hAfter⟩ := fileName_afterZipSeparator hOwn
    · rw [hWhole]
    · rw [ownName, ownName, hName, hAfter]
      rfl

theorem extensionOf_of_ownName {element : Text} (hOwn : '!' ∉ ownName element) :
    extensionOf element = ownExtension element := by
  obtain hWhole | ⟨name, hName, hAfter⟩ := fileName_afterZipSeparator hOwn
  · rw [extensionOf, hWhole]
    rfl
  · rw [extensionOf, hAfter.trans hName.symm]
    rfl

/-! ## Items -/

theorem originalName_eq_ownName (file : HashedFile) :
    file.originalName = ownName (afterZipSeparator file.originalKey) := rfl

theorem extensionOf_nested (item : QueueItem) (members : List ExtractedMember) :
    extensionOf (item.nested members).displayKey = extensionOf (lastElement item.displayKey members) := by
  rw [extensionOf, extensionOf, afterZipSeparator_nested]

theorem processItem_of_disk {w : World} {item : QueueItem} (hName : isAppleDoubleBasename item.displayKey = false)
    (hDisk : (item.onDisk || item.downloads w) = true) :
    processItem w item = if extensionOf item.displayKey = "zip".toList then item.expand w else item.hashFile w := by
  simp only [processItem, hName, hDisk, isZipKey, beq_iff_eq]
  rfl

/-- A nested item is named by the last element of its chain exactly if that element's own name has no separator. -/
theorem nested_namedByElement_iff (w : World) (index : Nat) (task : DeduplicateTask) (members : List ExtractedMember) :
    NamedByElement w ((rootItem index task).nested members) (lastElement task.key members) ↔
      '!' ∉ ownName (lastElement task.key members) := by
  have hKey := afterZipSeparator_nested (rootItem index task) members
  constructor
  · intro hNamed
    have hName := hNamed.name ⟨((rootItem index task).nested members).displayKey, [], [], [], []⟩ rfl
    rw [originalName_eq_ownName, hKey] at hName
    exact (ownName_afterZipSeparator_iff _).mp hName
  · intro hOwn
    have hExtension := (extensionOf_nested (rootItem index task) members).trans (extensionOf_of_ownName hOwn)
    refine ⟨hExtension, ?_, ?_⟩
    · intro file hFile
      rw [originalName_eq_ownName, hFile, hKey]
      exact (ownName_afterZipSeparator_iff _).mpr hOwn
    · intro hApple hDisk
      rw [processItem_of_disk hApple hDisk, hExtension]
      rfl

/-- The bucket object `wow!.zip` has the name `.zip` and no extension, and is hashed as a plain file. -/
theorem bang_archive_not_named :
    ¬ NamedByElement pictureWorld ((rootItem 0 ⟨"photos".toList, "wow!.zip".toList, 7⟩).nested [])
      (lastElement "wow!.zip".toList []) := by
  intro hNamed
  have hExtension := hNamed.extension
  revert hExtension
  decide

end Pigeon.Deduplicate
