import Pigeon.Library.Checked
import Pigeon.Library.Lossy

/-! # Texts cut at a byte

A text is addressed by its bytes, and may be cut where a character begins and at its end. The boundaries are the byte lengths
of its beginnings, of which `takeBytes` takes the longest that has room.
-/
namespace Pigeon.Library

set_option autoImplicit false

namespace Utf8

/-- `str::is_char_boundary` -/
def isCharBoundary (s : Text) (index : Nat) : Bool :=
  if index = 0 then true
  else
    match (encode s)[index]? with
    | some b => !isContinuation b
    | none => index == (encode s).length

/-- `&s[..stop]`, which panics within a character. -/
def sliceTo (s : Text) (stop : Nat) : Except Halt Text :=
  if isCharBoundary s stop then
    match decode ((encode s).take stop) with
    | some before => .ok before
    | none => .error .panic
  else .error .panic

/-- One text is what stands before a character boundary of the other. -/
def CutFrom (s before : Text) : Prop := ∃ stop, isCharBoundary s stop ∧ encode before = (encode s).take stop

end Utf8

/-! ## Beginnings and their bytes -/

namespace Text

theorem byteLength_takeBytes_le (bytes : Nat) (s : Text) : byteLength (takeBytes bytes s) ≤ bytes := by
  induction s generalizing bytes with
  | nil => exact Nat.zero_le bytes
  | cons c s ih =>
    rw [takeBytes]
    split
    · rename_i hFits
      rw [byteLength_cons]
      have hRest := ih (bytes - c.utf8Size)
      omega
    · exact Nat.zero_le bytes

/-- No beginning with room is longer. -/
theorem prefix_takeBytes {before s : Text} {bytes : Nat} (hBefore : before <+: s) (hRoom : byteLength before ≤ bytes) :
    before <+: takeBytes bytes s := by
  induction s generalizing before bytes with
  | nil =>
    rw [List.prefix_nil.mp hBefore]
    exact List.nil_prefix
  | cons c s ih =>
    rcases List.prefix_cons_iff.mp hBefore with rfl | ⟨rest, rfl, hRest⟩
    · exact List.nil_prefix
    · rw [byteLength_cons] at hRoom
      rw [takeBytes, if_pos (by omega)]
      exact (List.prefix_cons_inj c).mpr (ih hRest (by omega))

theorem takeBytes_of_le {s : Text} {bytes : Nat} (h : byteLength s ≤ bytes) : takeBytes bytes s = s := by
  have hBefore := takeBytes_prefix bytes s
  exact hBefore.eq_of_length_le (prefix_takeBytes List.prefix_rfl h).length_le

/-- A cut leaves no room for four bytes more. -/
theorem lt_byteLength_takeBytes {s : Text} {bytes : Nat} (h : bytes < byteLength s) :
    bytes < byteLength (takeBytes bytes s) + 4 := by
  induction s generalizing bytes with
  | nil => exact absurd h (Nat.not_lt_zero bytes)
  | cons c s ih =>
    have hSize := c.utf8Size_le_four
    rw [byteLength_cons] at h
    rw [takeBytes]
    split
    · rename_i hFits
      have hRest := ih (show bytes - c.utf8Size < byteLength s by omega)
      rw [byteLength_cons]
      omega
    · omega

end Text

/-! ## Boundaries -/

namespace Utf8

theorem isCharBoundary_zero (s : Text) : isCharBoundary s 0 = true := if_pos rfl

theorem isCharBoundary_within {c : Char} {index : Nat} (hPos : 0 < index) (h : index < c.utf8Size) (s : Text) :
    isCharBoundary (c :: s) index = false := by
  obtain ⟨first, rest, hBytes, -, hRest⟩ := encodeChar_eq_cons c
  have hLength := String.length_utf8EncodeChar c
  rw [hBytes, List.length_cons] at hLength
  obtain ⟨index, rfl⟩ : ∃ i, index = i + 1 := ⟨index - 1, by omega⟩
  have hIndex : index < rest.length := by omega
  rw [isCharBoundary, if_neg (Nat.succ_ne_zero index), encode_cons, hBytes, List.cons_append, List.getElem?_cons_succ,
    List.getElem?_append_left hIndex, List.getElem?_eq_getElem hIndex]
  change (!isContinuation rest[index]) = false
  rw [hRest _ (List.getElem_mem hIndex), Bool.not_true]

theorem isCharBoundary_behind (c : Char) (s : Text) (index : Nat) :
    isCharBoundary (c :: s) (c.utf8Size + index) = isCharBoundary s index := by
  have hLength := String.length_utf8EncodeChar c
  have hSize := c.utf8Size_pos
  have hByte : (encode (c :: s))[c.utf8Size + index]? = (encode s)[index]? := by
    rw [encode_cons, ← hLength, List.getElem?_append_right (Nat.le_add_right _ _), Nat.add_sub_cancel_left]
  have hEnd : (c.utf8Size + index == (encode (c :: s)).length) = (index == (encode s).length) := by
    rw [encode_cons, List.length_append, hLength, Bool.eq_iff_iff, beq_iff_eq, beq_iff_eq, Nat.add_left_cancel_iff]
  rw [isCharBoundary, if_neg (by omega), hByte, hEnd]
  rcases Nat.eq_zero_or_pos index with rfl | hPos
  · rw [isCharBoundary_zero]
    cases s with
    | nil => rfl
    | cons d s =>
      obtain ⟨first, rest, hBytes, hFirst, -⟩ := encodeChar_eq_cons d
      rw [encode_cons, hBytes, List.cons_append, List.getElem?_cons_zero]
      change (!isContinuation first) = true
      rw [hFirst, Bool.not_false]
  · rw [isCharBoundary, if_neg hPos.ne']

/-- The boundaries of a text are the byte lengths of its beginnings. -/
theorem isCharBoundary_iff {s : Text} {index : Nat} :
    isCharBoundary s index ↔ ∃ before, before <+: s ∧ Text.byteLength before = index := by
  induction s generalizing index with
  | nil =>
    constructor
    · intro h
      rcases Nat.eq_zero_or_pos index with rfl | hPos
      · exact ⟨[], List.prefix_rfl, rfl⟩
      · rw [isCharBoundary, if_neg hPos.ne'] at h
        exact absurd (beq_iff_eq.mp h) hPos.ne'
    · rintro ⟨before, hBefore, rfl⟩
      rw [List.prefix_nil.mp hBefore]
      rfl
  | cons c s ih =>
    constructor
    · intro h
      rcases Nat.eq_zero_or_pos index with rfl | hPos
      · exact ⟨[], List.nil_prefix, rfl⟩
      · rcases Nat.lt_or_ge index c.utf8Size with hWithin | hBehind
        · rw [isCharBoundary_within hPos hWithin] at h
          cases h
        · obtain ⟨index, rfl⟩ := Nat.exists_eq_add_of_le hBehind
          rw [isCharBoundary_behind] at h
          obtain ⟨before, hBefore, rfl⟩ := ih.mp h
          exact ⟨c :: before, (List.prefix_cons_inj c).mpr hBefore, Text.byteLength_cons c before⟩
    · rintro ⟨before, hBefore, rfl⟩
      rcases List.prefix_cons_iff.mp hBefore with rfl | ⟨rest, rfl, hRest⟩
      · exact isCharBoundary_zero _
      · rw [Text.byteLength_cons, isCharBoundary_behind]
        exact ih.mpr ⟨rest, hRest, rfl⟩

theorem take_encode_of_prefix {before s : Text} (h : before <+: s) :
    (encode s).take (Text.byteLength before) = encode before := by
  obtain ⟨rest, rfl⟩ := h
  rw [encode_append, ← length_encode, List.take_left]

/-- A cut at a boundary takes the beginning of its length. -/
theorem sliceTo_of_prefix {before s : Text} (h : before <+: s) : sliceTo s (Text.byteLength before) = .ok before := by
  rw [sliceTo, if_pos (isCharBoundary_iff.mpr ⟨before, h, rfl⟩), take_encode_of_prefix h, decode_encode]

theorem cutFrom_iff {s before : Text} : CutFrom s before ↔ before <+: s := by
  constructor
  · rintro ⟨stop, -, hBytes⟩
    obtain ⟨rest, hRest, -⟩ := exists_rest (show encode before ++ (encode s).drop stop = encode s by
      rw [hBytes, List.take_append_drop])
    exact ⟨rest, hRest.symm⟩
  · intro h
    have hBytes := take_encode_of_prefix h
    exact ⟨Text.byteLength before, isCharBoundary_iff.mpr ⟨before, h, rfl⟩, hBytes.symm⟩

/-- The last boundary with room is found by going down from there. -/
theorem findGreatest_isCharBoundary (s : Text) (bytes : Nat) :
    Nat.findGreatest (fun index => isCharBoundary s index) bytes = Text.byteLength (Text.takeBytes bytes s) := by
  rw [Nat.findGreatest_eq_iff]
  refine ⟨Text.byteLength_takeBytes_le bytes s, ?_, ?_⟩
  · intro _
    exact isCharBoundary_iff.mpr ⟨_, Text.takeBytes_prefix bytes s, rfl⟩
  · intro index hAbove hRoom hBoundary
    obtain ⟨before, hBefore, rfl⟩ := isCharBoundary_iff.mp hBoundary
    exact Nat.not_lt.mpr (Text.byteLength_le_of_prefix (Text.prefix_takeBytes hBefore hRoom)) hAbove

end Utf8

end Pigeon.Library
