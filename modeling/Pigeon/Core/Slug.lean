import Pigeon.Core.Data
import Pigeon.Library.Trim

/-! # Slugs

What `slugify` makes of a name is a slug, and a slug is left as it is.
-/
namespace Pigeon.Core

open Library

set_option autoImplicit false

def isSlugChar (ch : Char) : Bool := ch.isAlphanum || ch == '.' || ch == '_' || ch == '-'

structure IsSlug (maxLen : Nat) (slug : Text) : Prop where
  nonempty : slug ≠ []
  kept : ∀ c ∈ slug, isSlugChar c
  first : slug.head? ≠ some '-'
  last : slug.getLast? ≠ some '-'
  bytes : Text.byteLength slug ≤ maxLen

instance (maxLen : Nat) (slug : Text) : Decidable (IsSlug maxLen slug) :=
  decidable_of_iff
    (slug ≠ [] ∧ slug.all isSlugChar ∧ slug.head? ≠ some '-' ∧ slug.getLast? ≠ some '-' ∧ Text.byteLength slug ≤ maxLen)
    ⟨fun ⟨hNonempty, hKept, hFirst, hLast, hBytes⟩ => ⟨hNonempty, List.all_eq_true.mp hKept, hFirst, hLast, hBytes⟩,
      fun h => ⟨h.nonempty, List.all_eq_true.mpr h.kept, h.first, h.last, h.bytes⟩⟩

theorem utf8Size_of_isAlphanum {ch : Char} (h : ch.isAlphanum) : ch.utf8Size = 1 := by
  have hRange : ch.val.toNat ≤ 127 := by
    simp only [Char.isAlphanum, Char.isAlpha, Char.isUpper, Char.isLower, Char.isDigit, Bool.or_eq_true, Bool.and_eq_true,
      decide_eq_true_eq, UInt32.le_iff_toNat_le, ge_iff_le] at h
    have hLetters : 'Z'.val.toNat = 90 ∧ 'z'.val.toNat = 122 ∧ '9'.val.toNat = 57 := by decide
    omega
  rw [Char.utf8Size, if_pos (UInt32.le_iff_toNat_le.mpr hRange)]

theorem utf8Size_of_isSlugChar {ch : Char} (h : isSlugChar ch) : ch.utf8Size = 1 := by
  simp only [isSlugChar, Bool.or_eq_true, beq_iff_eq] at h
  rcases h with ((hAlphanum | rfl) | rfl) | rfl
  · exact utf8Size_of_isAlphanum hAlphanum
  · decide
  · decide
  · decide

/-- A slug has as many bytes as characters. -/
theorem byteLength_of_kept {slug : Text} (h : ∀ c ∈ slug, isSlugChar c) : Text.byteLength slug = slug.length := by
  induction slug with
  | nil => rfl
  | cons ch slug ih =>
    rw [Text.byteLength_cons, utf8Size_of_isSlugChar (h ch List.mem_cons_self),
      ih fun c hc => h c (List.mem_cons_of_mem ch hc), List.length_cons, Nat.add_comm]

/-- The slug of the loop, but for a last separator that has no character after it. -/
def Bounded (maxLen : Nat) (slug : Text) : Prop := slug.length ≤ maxLen ∨ ∃ rest, slug = rest ++ ['-'] ∧ rest.length ≤ maxLen

theorem kept_concat {slug : Text} (h : ∀ c ∈ slug, isSlugChar c) {ch : Char} (hChar : isSlugChar ch) :
    ∀ c ∈ slug ++ [ch], isSlugChar c := by
  intro c hc
  rcases List.mem_append.mp hc with hOld | hNew
  · exact h c hOld
  · rwa [List.mem_singleton.mp hNew]

theorem slugifyFrom_kept {maxLen : Nat} {slug : Text} (hKept : ∀ c ∈ slug, isSlugChar c) (hLength : slug.length ≤ maxLen)
    (pendingSeparator : Bool) (name : Text) :
    (∀ c ∈ slugifyFrom maxLen slug pendingSeparator name, isSlugChar c) ∧
      Bounded maxLen (slugifyFrom maxLen slug pendingSeparator name) := by
  induction name generalizing slug pendingSeparator with
  | nil => exact ⟨hKept, .inl hLength⟩
  | cons ch name ih =>
    rw [slugifyFrom]
    split
    · rename_i hSlugChar
      obtain ⟨next, hNext⟩ : ∃ next, (if pendingSeparator && slug ≠ [] then slug ++ ['-'] else slug) = next := ⟨_, rfl⟩
      have hNextKept : (∀ c ∈ next, isSlugChar c) ∧ Bounded maxLen next := by
        rw [← hNext]
        split
        · exact ⟨kept_concat hKept (by decide), .inr ⟨slug, rfl, hLength⟩⟩
        · exact ⟨hKept, .inl hLength⟩
      rw [hNext]
      change (∀ c ∈ if maxLen ≤ next.length then next else slugifyFrom maxLen (next ++ [ch]) false name, isSlugChar c) ∧
        Bounded maxLen (if maxLen ≤ next.length then next else slugifyFrom maxLen (next ++ [ch]) false name)
      split
      · exact hNextKept
      · rename_i hRoom
        refine ih (kept_concat hNextKept.1 hSlugChar) ?_ false
        rw [List.length_append, List.length_singleton]
        omega
    · exact ih hKept hLength true

/-- Without a separator that is due, the characters of a slug are taken over up to the bound. -/
theorem slugifyFrom_of_kept {maxLen : Nat} {slug name : Text} (hKept : ∀ c ∈ name, isSlugChar c)
    (hLength : (slug ++ name).length ≤ maxLen) : slugifyFrom maxLen slug false name = slug ++ name := by
  induction name generalizing slug with
  | nil => rw [slugifyFrom, List.append_nil]
  | cons ch name ih =>
    have hChar : (ch.isAlphanum || ch == '.' || ch == '_' || ch == '-') = true := hKept ch List.mem_cons_self
    rw [List.append_cons] at hLength
    have hRoom : ¬ maxLen ≤ slug.length := by
      rw [List.length_append, List.length_append, List.length_singleton] at hLength
      omega
    rw [slugifyFrom, if_pos hChar]
    change (if maxLen ≤ slug.length then slug else slugifyFrom maxLen (slug ++ [ch]) false name) = _
    rw [if_neg hRoom, ih (fun c hc => hKept c (List.mem_cons_of_mem ch hc)) hLength, ← List.append_cons]

theorem slugify_eq (name : Text) (maxLen : Nat) (fallback : Text) :
    slugify name maxLen fallback =
      if trimMatches (· == '-') (slugifyFrom maxLen [] false name) = [] then fallback
      else trimMatches (· == '-') (slugifyFrom maxLen [] false name) := rfl

/-- A slug is left as it is, whatever the fallback. -/
theorem slugify_of_isSlug {maxLen : Nat} {slug : Text} (h : IsSlug maxLen slug) (fallback : Text) :
    slugify slug maxLen fallback = slug := by
  have hLoop : slugifyFrom maxLen [] false slug = slug := by
    apply slugifyFrom_of_kept h.kept
    rw [List.nil_append, ← byteLength_of_kept h.kept]
    exact h.bytes
  have hTrim : trimMatches (· == '-') slug = slug := by
    apply trimMatches_eq_self
    · intro c hHead
      exact beq_false_of_ne fun hHyphen => h.first (hHyphen ▸ hHead)
    · intro c hLast
      exact beq_false_of_ne fun hHyphen => h.last (hHyphen ▸ hLast)
  rw [slugify_eq, hLoop, hTrim, if_neg h.nonempty]

theorem isSlug_slugify {maxLen : Nat} {fallback : Text} (hFallback : IsSlug maxLen fallback) (name : Text) :
    IsSlug maxLen (slugify name maxLen fallback) := by
  have hNone : ∀ c ∈ ([] : Text), isSlugChar c := fun c hc => absurd hc List.not_mem_nil
  obtain ⟨hKept, hBounded⟩ := slugifyFrom_kept hNone (Nat.zero_le maxLen) false name
  have hTrimKept : ∀ c ∈ trimMatches (· == '-') (slugifyFrom maxLen [] false name), isSlugChar c :=
    fun c hc => hKept c (mem_of_mem_trimMatches hc)
  rw [slugify_eq]
  split
  · exact hFallback
  · rename_i hNonempty
    refine ⟨hNonempty, hTrimKept, ?_, ?_, ?_⟩
    · intro hHead
      exact absurd (head?_trimMatches hHead) (by decide)
    · intro hLast
      exact absurd (getLast?_trimMatches hLast) (by decide)
    · rw [byteLength_of_kept hTrimKept]
      rcases hBounded with hLength | ⟨rest, hRest, hLength⟩
      · exact (length_trimMatches_le _ _).trans hLength
      · rw [hRest, trimMatches_concat (by decide)]
        exact (length_trimMatches_le _ _).trans hLength

/-- Whatever the name, `slugify` makes a slug of it, and makes nothing else of that slug. -/
theorem slugify_spec {maxLen : Nat} {fallback : Text} (hFallback : IsSlug maxLen fallback) (name : Text) :
    IsSlug maxLen (slugify name maxLen fallback) ∧
      slugify (slugify name maxLen fallback) maxLen fallback = slugify name maxLen fallback :=
  ⟨isSlug_slugify hFallback name, slugify_of_isSlug (isSlug_slugify hFallback name) fallback⟩

theorem isSlug_sheet : IsSlug maxSheetSlugLength "sheet".toList := by decide

theorem isSlug_file : IsSlug maxFilenameLength "file".toList := by decide

theorem slugify_spec_sheet :
    IsSlug maxSheetSlugLength (sheetSlug "Budget (Normal, Reduced)".toList) ∧
      sheetSlug (sheetSlug "Budget (Normal, Reduced)".toList) = sheetSlug "Budget (Normal, Reduced)".toList :=
  slugify_spec isSlug_sheet _

theorem isSlug_sheetSlug (name : Text) : IsSlug maxSheetSlugLength (sheetSlug name) := isSlug_slugify isSlug_sheet name

theorem isSlug_strictStem (name : Text) : IsSlug maxFilenameLength (strictStem name) := by
  rw [strictStem]
  split
  · split
    · exact isSlug_slugify isSlug_file _
    · exact isSlug_file
  · exact isSlug_file

end Pigeon.Core
