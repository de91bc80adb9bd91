import Pigeon.Core.Data
import Pigeon.Library.Boundary

/-! # What a sanitized file name is

The code cuts a name at a byte that it looks for, and panics where that is no character boundary. It never does: what it
makes of a name is the longest beginning with room, before the extension if that fits.
-/
namespace Pigeon.Core

open Library

set_option autoImplicit false

namespace Checked

/-- The loop of `truncate_at_char_boundary`. -/
def charBoundaryFrom (s : Text) : Nat → Nat
  | 0 => 0
  | stop + 1 => if Utf8.isCharBoundary s (stop + 1) then stop + 1 else charBoundaryFrom s stop

def truncateAtCharBoundary (s : Text) (maxBytes : Nat) : Except Halt Text :=
  Utf8.sliceTo s (charBoundaryFrom s (min maxBytes (Text.byteLength s)))

def truncatePreservingExtension (name : Text) (maxLen : Nat) : Except Halt Text :=
  if Text.byteLength name ≤ maxLen then .ok name
  else
    match Text.rsplitOnce '.' name with
    | some (stem, ext) =>
      if ext ≠ [] ∧ Text.byteLength ext + 1 < maxLen then do
        let room ← minus (← minus maxLen (Text.byteLength ext)) 1
        let stem ← truncateAtCharBoundary stem room
        return stem ++ '.' :: ext
      else truncateAtCharBoundary name maxLen
    | none => truncateAtCharBoundary name maxLen

def sanitizeFilename (name : Text) : Except Halt Text :=
  match Text.fileName name with
  | some base => if base ≠ [] then truncatePreservingExtension base maxFilenameLength else .ok "file".toList
  | none => .ok "file".toList

theorem charBoundaryFrom_eq (s : Text) (stop : Nat) :
    charBoundaryFrom s stop = Text.byteLength (Text.takeBytes stop s) := by
  rw [← Utf8.findGreatest_isCharBoundary]
  induction stop with
  | zero => rfl
  | succ stop ih => rw [charBoundaryFrom, Nat.findGreatest_succ, ih]

/-- The slice is taken at a boundary. -/
theorem truncateAtCharBoundary_eq (s : Text) (maxBytes : Nat) :
    truncateAtCharBoundary s maxBytes = .ok (Text.takeBytes maxBytes s) := by
  rw [truncateAtCharBoundary, charBoundaryFrom_eq, Utf8.sliceTo_of_prefix (Text.takeBytes_prefix _ s)]
  rcases Nat.le_total maxBytes (Text.byteLength s) with hLe | hGe
  · rw [Nat.min_eq_left hLe]
  · rw [Nat.min_eq_right hGe, Text.takeBytes_of_le (Nat.le_refl _), Text.takeBytes_of_le hGe]

theorem truncatePreservingExtension_eq (name : Text) (maxLen : Nat) :
    truncatePreservingExtension name maxLen = .ok (Core.truncatePreservingExtension name maxLen) := by
  rw [truncatePreservingExtension, Core.truncatePreservingExtension]
  by_cases hShort : Text.byteLength name ≤ maxLen
  · rw [if_pos hShort, if_pos hShort]
  · rw [if_neg hShort, if_neg hShort]
    cases Text.rsplitOnce '.' name with
    | none => exact truncateAtCharBoundary_eq name maxLen
    | some pieces =>
      obtain ⟨stem, ext⟩ := pieces
      dsimp only
      split
      · rename_i hExt
        rw [bind_of_ok (minus_ok (by omega)), bind_of_ok (minus_ok (by omega)),
          bind_of_ok (truncateAtCharBoundary_eq stem _)]
        rfl
      · exact truncateAtCharBoundary_eq name maxLen

/-- No slice and no difference of the code panics. -/
theorem sanitizeFilename_eq (name : Text) : sanitizeFilename name = .ok (Core.sanitizeFilename name) := by
  rw [sanitizeFilename, Core.sanitizeFilename]
  cases Text.fileName name with
  | none => rfl
  | some base =>
    dsimp only
    split
    · exact truncatePreservingExtension_eq base maxFilenameLength
    · rfl

end Checked

/-- A name that a file of its own can have in any directory. -/
structure IsFilename (maxLen : Nat) (name : Text) : Prop where
  nonempty : name ≠ []
  separator : '/' ∉ name
  current : name ≠ ['.']
  parent : name ≠ ['.', '.']
  bytes : Text.byteLength name ≤ maxLen

instance (maxLen : Nat) (name : Text) : Decidable (IsFilename maxLen name) :=
  decidable_of_iff (name ≠ [] ∧ '/' ∉ name ∧ name ≠ ['.'] ∧ name ≠ ['.', '.'] ∧ Text.byteLength name ≤ maxLen)
    ⟨fun ⟨hNonempty, hSeparator, hCurrent, hParent, hBytes⟩ => ⟨hNonempty, hSeparator, hCurrent, hParent, hBytes⟩,
      fun h => ⟨h.nonempty, h.separator, h.current, h.parent, h.bytes⟩⟩

/-- A long name cut at a character boundary, as near to the limit as there is one: before the extension when that fits, and
at the end otherwise. -/
structure Shortened (maxLen : Nat) (name short : Text) : Prop where
  cut : Utf8.CutFrom name short ∨
    ∃ stem ext kept, name = stem ++ '.' :: ext ∧ '.' ∉ ext ∧ Utf8.CutFrom stem kept ∧ short = kept ++ '.' :: ext
  near : maxLen < Text.byteLength short + 4
  extension : ∀ stem ext, name = stem ++ '.' :: ext → '.' ∉ ext → ext ≠ [] → Text.byteLength ext < maxLen - 1 →
    ∃ kept, Utf8.CutFrom stem kept ∧ short = kept ++ '.' :: ext

/-! ## Cutting a name -/

/-- Either the extension is kept, or there is none that fits. -/
theorem truncatePreservingExtension_cases {name : Text} {maxLen : Nat} (hLong : maxLen < Text.byteLength name) :
    (∃ stem ext, name = stem ++ '.' :: ext ∧ '.' ∉ ext ∧ ext ≠ [] ∧ Text.byteLength ext + 1 < maxLen ∧
      truncatePreservingExtension name maxLen = Text.takeBytes (maxLen - Text.byteLength ext - 1) stem ++ '.' :: ext) ∨
    (∀ stem ext, name = stem ++ '.' :: ext → '.' ∉ ext → ext ≠ [] → ¬ Text.byteLength ext + 1 < maxLen) ∧
      truncatePreservingExtension name maxLen = Text.takeBytes maxLen name := by
  rw [truncatePreservingExtension, if_neg (Nat.not_le.mpr hLong)]
  cases hSplit : Text.rsplitOnce '.' name with
  | none =>
    right
    refine ⟨?_, rfl⟩
    rintro stem ext rfl
    exact absurd (List.mem_append_right stem List.mem_cons_self) (Text.not_mem_of_rsplitOnce hSplit)
  | some pieces =>
    obtain ⟨stem, ext⟩ := pieces
    obtain ⟨hName, hDot⟩ := Text.rsplitOnce_eq_some hSplit
    by_cases hFits : ext ≠ [] ∧ Text.byteLength ext + 1 < maxLen
    · left
      exact ⟨stem, ext, hName, hDot, hFits.1, hFits.2, if_pos hFits⟩
    · right
      refine ⟨?_, if_neg hFits⟩
      rintro other otherExt rfl hOther hNonempty hRoom
      rw [Text.rsplitOnce_append other hOther] at hSplit
      cases hSplit
      exact hFits ⟨hNonempty, hRoom⟩

theorem byteLength_extension (kept ext : Text) :
    Text.byteLength (kept ++ '.' :: ext) = Text.byteLength kept + Text.byteLength ext + 1 := by
  have hDot : Char.utf8Size '.' = 1 := by decide
  rw [Text.byteLength_append, Text.byteLength_cons, hDot]
  omega

theorem shortened_truncatePreservingExtension {name : Text} {maxLen : Nat} (hLong : maxLen < Text.byteLength name) :
    Shortened maxLen name (truncatePreservingExtension name maxLen) := by
  rcases truncatePreservingExtension_cases hLong with ⟨stem, ext, rfl, hDot, hNonempty, hFits, hShort⟩ | ⟨hNone, hShort⟩
  · have hCut : Utf8.CutFrom stem (Text.takeBytes (maxLen - Text.byteLength ext - 1) stem) :=
      Utf8.cutFrom_iff.mpr (Text.takeBytes_prefix _ stem)
    refine ⟨.inr ⟨stem, ext, _, rfl, hDot, hCut, hShort⟩, ?_, ?_⟩
    · rw [byteLength_extension] at hLong
      have hNear := Text.lt_byteLength_takeBytes (show maxLen - Text.byteLength ext - 1 < Text.byteLength stem by omega)
      rw [hShort, byteLength_extension]
      omega
    · intro other otherExt hName hOther _ _
      have hSplit := Text.rsplitOnce_append stem hDot
      rw [hName, Text.rsplitOnce_append other hOther] at hSplit
      cases hSplit
      exact ⟨_, hCut, hShort⟩
  · rw [hShort]
    refine ⟨.inl (Utf8.cutFrom_iff.mpr (Text.takeBytes_prefix maxLen name)), Text.lt_byteLength_takeBytes hLong, ?_⟩
    intro stem ext hName hDot hNonempty hRoom
    exact absurd (show Text.byteLength ext + 1 < maxLen by omega) (hNone stem ext hName hDot hNonempty)

/-- What ends in a letter of an extension is not made of dots. -/
theorem getLast?_extension {ext : Text} (hDot : '.' ∉ ext) (hNonempty : ext ≠ []) (kept : Text) :
    (kept ++ '.' :: ext).getLast? ≠ some '.' := by
  obtain ⟨front, last, rfl⟩ := (List.eq_nil_or_concat ext).resolve_left hNonempty
  rw [List.concat_eq_append, ← List.cons_append, ← List.append_assoc, List.getLast?_concat]
  intro hLast
  obtain rfl := Option.some.inj hLast
  exact hDot (by simp)

/-- A limit of six bytes leaves three of a name that is cut. -/
theorem isFilename_truncatePreservingExtension {name : Text} {maxLen : Nat} (hMaxLen : 6 ≤ maxLen) {path : Text}
    (hName : Text.fileName path = some name) : IsFilename maxLen (truncatePreservingExtension name maxLen) := by
  obtain ⟨-, hNonempty, hCurrent, hParent⟩ := Text.mem_splitOn_of_fileName hName
  have hSeparator : '/' ∉ truncatePreservingExtension name maxLen :=
    fun hMem => Text.not_mem_fileName hName (mem_truncatePreservingExtension hMem)
  rcases Nat.lt_or_ge maxLen (Text.byteLength name) with hLong | hShort
  · rcases truncatePreservingExtension_cases hLong with ⟨stem, ext, -, hDot, hExt, hFits, hCut⟩ | ⟨-, hCut⟩
    · have hStem := Text.byteLength_takeBytes_le (maxLen - Text.byteLength ext - 1) stem
      have hLast := getLast?_extension hDot hExt (Text.takeBytes (maxLen - Text.byteLength ext - 1) stem)
      rw [hCut] at hSeparator ⊢
      refine ⟨List.append_ne_nil_of_right_ne_nil _ (List.cons_ne_nil '.' ext), hSeparator, ?_, ?_, ?_⟩
      · intro hCurrent
        exact hLast (by rw [hCurrent]; rfl)
      · intro hParent
        exact hLast (by rw [hParent]; rfl)
      · rw [byteLength_extension]
        omega
    · have hBytes := Text.lt_byteLength_takeBytes hLong
      have hDots : ∀ dots ∈ [[], ['.'], ['.', '.']], Text.takeBytes maxLen name ≠ dots := by
        rintro dots hDots hEq
        have hFew : ∀ dots ∈ [[], ['.'], ['.', '.']], Text.byteLength dots ≤ 2 := by decide
        have hTwo := hFew dots hDots
        rw [← hEq] at hTwo
        omega
      rw [hCut] at hSeparator ⊢
      exact ⟨hDots _ (by simp), hSeparator, hDots _ (by simp), hDots _ (by simp), Text.byteLength_takeBytes_le maxLen name⟩
  · rw [truncatePreservingExtension, if_pos hShort] at hSeparator ⊢
    exact ⟨hNonempty, hSeparator, hCurrent, hParent, hShort⟩

theorem isFilename_file : IsFilename maxFilenameLength "file".toList := by decide

/-! ## Sanitizing a name -/

theorem sanitizeFilename_of_fileName {name base : Text} (h : Text.fileName name = some base) :
    sanitizeFilename name = truncatePreservingExtension base maxFilenameLength := by
  rw [sanitizeFilename, h]
  exact if_pos (Text.mem_splitOn_of_fileName h).2.1

theorem isFilename_sanitizeFilename (name : Text) : IsFilename maxFilenameLength (sanitizeFilename name) := by
  cases hName : Text.fileName name with
  | none =>
    rw [sanitizeFilename, hName]
    exact isFilename_file
  | some base =>
    rw [sanitizeFilename_of_fileName hName]
    exact isFilename_truncatePreservingExtension (by decide) hName

/-- A file name is left as it is. -/
theorem sanitizeFilename_of_isFilename {name : Text} (h : IsFilename maxFilenameLength name) : sanitizeFilename name = name := by
  rw [sanitizeFilename_of_fileName (Text.fileName_of_component h.separator h.nonempty h.current h.parent),
    truncatePreservingExtension, if_pos h.bytes]

/-- Whatever the name, the code comes to a file name, which is the last component of the name where that has room, and is
cut at character boundaries with its extension kept where it has none. -/
theorem sanitizeFilename_spec (name : Text) :
    ∃ filename, Checked.sanitizeFilename name = .ok filename ∧ IsFilename maxFilenameLength filename ∧
      ∀ base, Text.fileName name = some base →
        if Text.byteLength base ≤ maxFilenameLength then filename = base
        else Shortened maxFilenameLength base filename := by
  refine ⟨_, Checked.sanitizeFilename_eq name, isFilename_sanitizeFilename name, ?_⟩
  intro base hBase
  rw [sanitizeFilename_of_fileName hBase]
  split
  · rename_i hShort
    rw [truncatePreservingExtension, if_pos hShort]
  · rename_i hLong
    exact shortened_truncatePreservingExtension (Nat.lt_of_not_le hLong)

example : Checked.sanitizeFilename (List.replicate 60 'é' ++ ".png".toList) = .ok (List.replicate 48 'é' ++ ".png".toList) := by
  decide +kernel

end Pigeon.Core
