import Pigeon.Library.Text

/-! # Sanitizing a path segment

Lower-cased alphanumerics, every run of other characters as one hyphen, none at the ends.
The result is far from injective.
-/
namespace Pigeon.Keyring

open Library

set_option autoImplicit false

def maxSegmentLength : Nat := 100

/-- The loop of `sanitize_segment`; `started` says that the segment is not empty. -/
def sanitizeChars (lastWasHyphen started : Bool) : Text → Text
  | [] => []
  | ch :: rest =>
    if ch.isAlphanum then ch.toLower :: sanitizeChars false true rest
    else if !lastWasHyphen && started then '-' :: sanitizeChars true started rest
    else sanitizeChars lastWasHyphen started rest

def sanitizeSegment (input : Text) : Text :=
  let segment := (sanitizeChars false false input).take maxSegmentLength
  if segment.getLast? = some '-' then segment.dropLast else segment

theorem mem_sanitizeChars {lastWasHyphen started : Bool} {input : Text} {c : Char}
    (h : c ∈ sanitizeChars lastWasHyphen started input) : c = '-' ∨ ∃ ch : Char, ch.isAlphanum ∧ c = ch.toLower := by
  induction input generalizing lastWasHyphen started with
  | nil => cases h
  | cons ch rest ih =>
    rw [sanitizeChars] at h
    split at h
    · rename_i hAlphanum
      obtain hHead | hRest := List.mem_cons.mp h
      · exact .inr ⟨ch, hAlphanum, hHead⟩
      · exact ih hRest
    · split at h
      · obtain hHead | hRest := List.mem_cons.mp h
        · exact .inl hHead
        · exact ih hRest
      · exact ih h

theorem mem_sanitizeSegment {input : Text} {c : Char} (h : c ∈ sanitizeSegment input) :
    c = '-' ∨ ∃ ch : Char, ch.isAlphanum ∧ c = ch.toLower := by
  rw [sanitizeSegment] at h
  split at h
  · exact mem_sanitizeChars (List.mem_of_mem_take (List.dropLast_subset _ h))
  · exact mem_sanitizeChars (List.mem_of_mem_take h)

theorem isAlphanum_toLower {ch : Char} (h : ch.isAlphanum) : ch.toLower.isAlphanum := by
  cases hUpper : ch.isUpper with
  | true =>
    have hAlpha : ch.isAlpha = true := by rw [Char.isAlpha, hUpper, Bool.true_or]
    rw [Char.isAlphanum, Char.isAlpha_toLower_eq_isAlpha, hAlpha, Bool.true_or]
  | false => rwa [Char.toLower_eq_of_not_isUpper (Bool.eq_false_iff.mp hUpper)]

theorem not_mem_sanitizeSegment {c : Char} (hAlphanum : c.isAlphanum = false) (hHyphen : c ≠ '-') (input : Text) :
    c ∉ sanitizeSegment input := by
  intro hMem
  obtain rfl | ⟨ch, hCh, rfl⟩ := mem_sanitizeSegment hMem
  · exact hHyphen rfl
  · rw [isAlphanum_toLower hCh] at hAlphanum
    cases hAlphanum

end Pigeon.Keyring
