import Pigeon.Keyring.Identity

/-! # Segments

What `sanitize_segment` makes of any text is a segment, and a segment is left as it is.
-/
namespace Pigeon.Keyring

open Library

set_option autoImplicit false

/-- No hyphen follows another. -/
def HyphensApart (text : Text) : Prop := text.IsChain fun before after => before = '-' → after ≠ '-'

structure IsSegment (text : Text) : Prop where
  kept : ∀ c ∈ text, c.isLower ∨ c.isDigit ∨ c = '-'
  single : HyphensApart text
  first : text.head? ≠ some '-'
  last : text.getLast? ≠ some '-'
  length : text.length ≤ maxSegmentLength

/-! ## Lower case -/

theorem not_isUpper_of_isDigit {ch : Char} (h : ch.isDigit) : ¬ ch.isUpper := by
  simp only [Char.isDigit, Char.isUpper, Bool.and_eq_true, decide_eq_true_eq, UInt32.le_iff_toNat_le, ge_iff_le] at h ⊢
  have hBounds : '9'.val.toNat = 57 ∧ 'A'.val.toNat = 65 := by decide
  omega

theorem toLower_of_kept {ch : Char} (h : ch.isLower ∨ ch.isDigit) : ch.toLower = ch := by
  apply Char.toLower_eq_of_not_isUpper
  rcases h with hLower | hDigit
  · exact Char.not_isUpper_of_isLower hLower
  · exact not_isUpper_of_isDigit hDigit

theorem kept_toLower {ch : Char} (h : ch.isAlphanum) : ch.toLower.isLower ∨ ch.toLower.isDigit := by
  rcases Bool.or_eq_true_iff.mp h with hAlpha | hDigit
  · exact .inl ((Char.isLower_toLower_eq_isAlpha ch).trans hAlpha)
  · rw [toLower_of_kept (.inr hDigit)]
    exact .inr hDigit

theorem isAlphanum_of_kept {ch : Char} (h : ch.isLower ∨ ch.isDigit) : ch.isAlphanum := by
  simp only [Char.isAlphanum, Char.isAlpha, Bool.or_eq_true]
  rcases h with hLower | hDigit
  · exact .inl (.inr hLower)
  · exact .inr hDigit

theorem ne_hyphen_of_isAlphanum {ch : Char} (h : ch.isAlphanum) : ch ≠ '-' := by
  rintro rfl
  revert h
  decide

/-! ## The loop -/

/-- The loop puts no hyphen where one has just been put, nor before the first letter or digit. -/
theorem sanitizeChars_apart (lastWasHyphen started : Bool) (input : Text) :
    HyphensApart (sanitizeChars lastWasHyphen started input) ∧
      (lastWasHyphen = true ∨ started = false → (sanitizeChars lastWasHyphen started input).head? ≠ some '-') := by
  induction input generalizing lastWasHyphen started with
  | nil => exact ⟨List.isChain_nil, fun _ => nofun⟩
  | cons ch rest ih =>
    rw [sanitizeChars]
    split
    · rename_i hAlphanum
      have hKept : ch.toLower ≠ '-' := ne_hyphen_of_isAlphanum (isAlphanum_toLower hAlphanum)
      refine ⟨List.isChain_cons.mpr ⟨fun _ _ hHyphen => absurd hHyphen hKept, (ih false true).1⟩, ?_⟩
      exact fun _ hHead => hKept (Option.some.inj hHead)
    · split
      · rename_i hDue
        simp only [Bool.and_eq_true, Bool.not_eq_true'] at hDue
        refine ⟨List.isChain_cons.mpr ⟨?_, (ih true started).1⟩, ?_⟩
        · rintro next hNext - rfl
          exact (ih true started).2 (.inl rfl) hNext
        · rintro (hLast | hStarted)
          · rw [hDue.1] at hLast
            cases hLast
          · rw [hDue.2] at hStarted
            cases hStarted
      · exact ih lastWasHyphen started

/-- A segment goes through the loop unchanged. -/
theorem sanitizeChars_of_apart {text : Text} (hKept : ∀ c ∈ text, c.isLower ∨ c.isDigit ∨ c = '-')
    (hApart : HyphensApart text) {lastWasHyphen started : Bool}
    (hFirst : lastWasHyphen = true ∨ started = false → text.head? ≠ some '-') :
    sanitizeChars lastWasHyphen started text = text := by
  induction text generalizing lastWasHyphen started with
  | nil => rfl
  | cons ch rest ih =>
    obtain ⟨hNext, hRestApart⟩ := List.isChain_cons.mp hApart
    have hRest : ∀ c ∈ rest, c.isLower ∨ c.isDigit ∨ c = '-' := fun c hc => hKept c (List.mem_cons_of_mem ch hc)
    rw [sanitizeChars]
    rcases or_assoc.mpr (hKept ch List.mem_cons_self) with hChar | rfl
    · rw [if_pos (isAlphanum_of_kept hChar), toLower_of_kept hChar, ih hRest hRestApart]
      rintro (hLast | hStarted)
      · cases hLast
      · cases hStarted
    · have hDue : lastWasHyphen = false ∧ started = true := by
        constructor
        · exact Bool.eq_false_iff.mpr fun hLast => hFirst (.inl hLast) rfl
        · exact Bool.ne_false_iff.mp fun hStarted => hFirst (.inr hStarted) rfl
      rw [if_neg (by decide), hDue.1, hDue.2, if_pos (by decide), ih hRest hRestApart]
      exact fun _ hHead => hNext '-' hHead rfl rfl

/-! ## The segment -/

theorem sanitizeSegment_eq (input : Text) {segment : Text}
    (hSegment : (sanitizeChars false false input).take maxSegmentLength = segment) :
    sanitizeSegment input = if segment.getLast? = some '-' then segment.dropLast else segment := by
  rw [← hSegment]
  rfl

theorem isSegment_sanitizeSegment (input : Text) : IsSegment (sanitizeSegment input) := by
  obtain ⟨hApart, hFirst⟩ := sanitizeChars_apart false false input
  obtain ⟨segment, hSegment⟩ : ∃ segment, (sanitizeChars false false input).take maxSegmentLength = segment := ⟨_, rfl⟩
  have hCut : segment <+: sanitizeChars false false input := hSegment ▸ List.take_prefix _ _
  have hLength : segment.length ≤ maxSegmentLength := hSegment ▸ List.length_take_le _ _
  have hKept (c : Char) (hc : c ∈ segment) : c.isLower ∨ c.isDigit ∨ c = '-' := by
    rcases mem_sanitizeChars (hCut.subset hc) with rfl | ⟨ch, hAlphanum, rfl⟩
    · exact .inr (.inr rfl)
    · exact or_assoc.mp (.inl (kept_toLower hAlphanum))
  have hHead (part : Text) (hPart : part <+: sanitizeChars false false input) : part.head? ≠ some '-' := by
    intro hHyphen
    obtain ⟨after, hAfter⟩ := hPart
    apply hFirst (.inr rfl)
    rw [← hAfter, List.head?_append, hHyphen, Option.some_or]
  have hSingle : HyphensApart segment := List.IsChain.infix hApart hCut.isInfix
  rw [sanitizeSegment_eq input hSegment]
  split
  · rename_i hLast
    obtain ⟨rest, rfl⟩ := List.getLast?_eq_some_iff.mp hLast
    have hRest : rest <+: sanitizeChars false false input := (List.prefix_append rest ['-']).trans hCut
    obtain ⟨hRestSingle, -, hEnds⟩ := List.isChain_append.mp hSingle
    rw [List.length_append, List.length_singleton] at hLength
    rw [List.dropLast_concat]
    refine ⟨fun c hc => hKept c (List.mem_append_left _ hc), hRestSingle, hHead rest hRest, ?_, by omega⟩
    exact fun hHyphen => hEnds '-' hHyphen '-' rfl rfl rfl
  · rename_i hLast
    exact ⟨hKept, hSingle, hHead segment hCut, hLast, hLength⟩

theorem sanitizeSegment_of_isSegment {text : Text} (h : IsSegment text) : sanitizeSegment text = text := by
  have hLoop : (sanitizeChars false false text).take maxSegmentLength = text := by
    rw [sanitizeChars_of_apart h.kept h.single fun _ => h.first]
    exact List.take_of_length_le h.length
  rw [sanitizeSegment_eq text hLoop, if_neg h.last]

/-- Whatever the text, `sanitize_segment` makes a segment of it, and makes nothing else of that segment. -/
theorem sanitizeSegment_spec (input : Text) :
    IsSegment (sanitizeSegment input) ∧ sanitizeSegment (sanitizeSegment input) = sanitizeSegment input :=
  ⟨isSegment_sanitizeSegment input, sanitizeSegment_of_isSegment (isSegment_sanitizeSegment input)⟩

end Pigeon.Keyring
