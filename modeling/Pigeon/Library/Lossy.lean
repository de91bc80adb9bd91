import Pigeon.Library.Utf8

/-! # Bytes read as text where they are none

What is no UTF-8 is replaced, one replacement character for the longest beginning of a sequence. A byte below 128 is
always a character of its own, so that what is searched for in ASCII is found in the bytes and in the text alike.
-/
namespace Pigeon.Library

set_option autoImplicit false

namespace Utf8

def decodeChar (bytes : List UInt8) : Option Char := bytes.toByteArray.utf8DecodeChar? 0

def isContinuation (b : UInt8) : Bool := decide (0x80 ≤ b ∧ b ≤ 0xBF)

/-- Whether the second byte can follow the first in a sequence of three or four bytes. -/
def continues (first second : UInt8) : Bool :=
  if first = 0xE0 then decide (0xA0 ≤ second ∧ second ≤ 0xBF)
  else if first = 0xED then decide (0x80 ≤ second ∧ second ≤ 0x9F)
  else if first = 0xF0 then decide (0x90 ≤ second ∧ second ≤ 0xBF)
  else if first = 0xF4 then decide (0x80 ≤ second ∧ second ≤ 0x8F)
  else isContinuation second

/-- How many of the bytes one replacement character stands for, when no character begins there. -/
def invalidLength : List UInt8 → Nat
  | first :: second :: third :: _ =>
    if 0xE0 ≤ first ∧ first ≤ 0xF4 ∧ continues first second then
      if 0xF0 ≤ first ∧ isContinuation third then 3 else 2
    else 1
  | [first, second] => if 0xE0 ≤ first ∧ first ≤ 0xF4 ∧ continues first second then 2 else 1
  | _ => 1

/-- `skip` counts what is left of the sequence that has been read. -/
def lossyFrom : Nat → List UInt8 → Text
  | _, [] => []
  | skip + 1, _ :: bytes => lossyFrom skip bytes
  | 0, b :: bytes =>
    match decodeChar (b :: bytes) with
    | some c => c :: lossyFrom (c.utf8Size - 1) bytes
    | none => '\uFFFD' :: lossyFrom (invalidLength (b :: bytes) - 1) bytes

/-- `String::from_utf8_lossy` -/
def lossy (bytes : List UInt8) : Text := lossyFrom 0 bytes

/-! ## Characters and their bytes -/

theorem decodeChar_append (c : Char) (rest : List UInt8) : decodeChar (String.utf8EncodeChar c ++ rest) = some c := by
  rw [decodeChar, List.toByteArray_append, ByteArray.utf8DecodeChar?_utf8EncodeChar_append]

theorem eq_of_decodeChar {bytes : List UInt8} {c : Char} (h : decodeChar bytes = some c) :
    ∃ rest, bytes = String.utf8EncodeChar c ++ rest := by
  have hBytes := ByteArray.eq_of_utf8DecodeChar?_eq_some h
  refine ⟨(bytes.toByteArray.extract c.utf8Size bytes.toByteArray.size).data.toList, toByteArray_inj ?_⟩
  rw [List.toByteArray_append]
  refine hBytes.trans (congrArg _ ?_)
  apply ByteArray.ext
  rw [List.data_toByteArray, Array.toArray_toList]

theorem encodeChar_ascii {c : Char} (h : c.toNat < 128) : String.utf8EncodeChar c = [UInt8.ofNat c.toNat] := by
  have hValue : c.val.toNat ≤ 0x7f := Nat.le_of_lt_succ h
  rw [String.utf8EncodeChar]
  exact if_pos hValue

/-- All bytes of a character that is not ASCII have the high bit. -/
theorem high_of_mem_encodeChar {c : Char} (h : 128 ≤ c.toNat) {b : UInt8} (hMem : b ∈ String.utf8EncodeChar c) :
    128 ≤ b.toNat := by
  have hValue : ¬ c.val.toNat ≤ 0x7f := Nat.not_le.mpr h
  simp only [String.utf8EncodeChar, if_neg hValue] at hMem
  split_ifs at hMem
  · simp only [List.mem_cons, List.not_mem_nil, or_false] at hMem
    obtain rfl | rfl := hMem
    · rw [UInt8.toNat_ofNat']
      omega
    · rw [UInt8.toNat_ofNat']
      omega
  · simp only [List.mem_cons, List.not_mem_nil, or_false] at hMem
    obtain rfl | rfl | rfl := hMem
    · rw [UInt8.toNat_ofNat']
      omega
    · rw [UInt8.toNat_ofNat']
      omega
    · rw [UInt8.toNat_ofNat']
      omega
  · simp only [List.mem_cons, List.not_mem_nil, or_false] at hMem
    obtain rfl | rfl | rfl | rfl := hMem
    · rw [UInt8.toNat_ofNat']
      omega
    · rw [UInt8.toNat_ofNat']
      omega
    · rw [UInt8.toNat_ofNat']
      omega
    · rw [UInt8.toNat_ofNat']
      omega

/-- An ASCII byte of a character is the character. -/
theorem eq_of_mem_encodeChar {c : Char} {b : UInt8} (hMem : b ∈ String.utf8EncodeChar c) (h : b.toNat < 128) :
    c.toNat = b.toNat := by
  obtain hAscii | hHigh := Nat.lt_or_ge c.toNat 128
  · rw [encodeChar_ascii hAscii, List.mem_singleton] at hMem
    rw [hMem, UInt8.toNat_ofNat']
    omega
  · exact absurd (high_of_mem_encodeChar hHigh hMem) (Nat.not_le.mpr h)

theorem isContinuation_iff {b : UInt8} : isContinuation b ↔ 0x80 ≤ b.toNat ∧ b.toNat ≤ 0xBF := by
  rw [isContinuation, decide_eq_true_eq, UInt8.le_iff_toNat_le, UInt8.le_iff_toNat_le]
  rfl

theorem isContinuation_ofNat (n : Nat) : isContinuation (UInt8.ofNat (n % 0x40 + 0x80)) := by
  rw [isContinuation_iff, UInt8.toNat_ofNat']
  omega

theorem not_isContinuation_ofNat {n : Nat} (h : n < 0x80 ∨ 0xC0 ≤ n ∧ n < 0x100) : isContinuation (UInt8.ofNat n) = false := by
  rw [← Bool.not_eq_true, isContinuation_iff, UInt8.toNat_ofNat']
  omega

/-- The first byte of a character continues none, and all its other bytes do. -/
theorem encodeChar_eq_cons (c : Char) : ∃ first rest, String.utf8EncodeChar c = first :: rest ∧
    isContinuation first = false ∧ ∀ b ∈ rest, isContinuation b := by
  simp only [String.utf8EncodeChar]
  split_ifs with hOne hTwo hThree
  · exact ⟨_, [], rfl, not_isContinuation_ofNat (.inl (Nat.lt_succ_of_le hOne)), List.forall_mem_nil _⟩
  · refine ⟨_, _, rfl, not_isContinuation_ofNat (.inr (by omega)), ?_⟩
    rw [List.forall_mem_singleton]
    exact isContinuation_ofNat _
  · refine ⟨_, _, rfl, not_isContinuation_ofNat (.inr (by omega)), ?_⟩
    rw [List.forall_mem_cons, List.forall_mem_singleton]
    exact ⟨isContinuation_ofNat _, isContinuation_ofNat _⟩
  · refine ⟨_, _, rfl, not_isContinuation_ofNat (.inr (by omega)), ?_⟩
    rw [List.forall_mem_cons, List.forall_mem_cons, List.forall_mem_singleton]
    exact ⟨isContinuation_ofNat _, isContinuation_ofNat _, isContinuation_ofNat _⟩

/-! ## Reading -/

theorem lossyFrom_append {skip : Nat} {read : List UInt8} (hLength : read.length = skip) (rest : List UInt8) :
    lossyFrom skip (read ++ rest) = lossyFrom 0 rest := by
  induction read generalizing skip with
  | nil =>
    obtain rfl : 0 = skip := hLength
    rfl
  | cons b read ih =>
    obtain rfl : read.length + 1 = skip := hLength
    rw [List.cons_append, lossyFrom]
    exact ih rfl

theorem lossy_encodeChar_append (c : Char) (rest : List UInt8) :
    lossy (String.utf8EncodeChar c ++ rest) = c :: lossy rest := by
  have hLength : (String.utf8EncodeChar c).length = c.utf8Size := String.length_utf8EncodeChar c
  have hDecode := decodeChar_append c rest
  obtain ⟨b, bytes, hBytes, -⟩ := encodeChar_eq_cons c
  rw [hBytes] at hLength hDecode ⊢
  rw [List.cons_append] at hDecode ⊢
  rw [lossy, lossyFrom, hDecode]
  exact congrArg (c :: ·) (lossyFrom_append (Nat.eq_sub_of_add_eq hLength) rest)

theorem lossy_encode_append (s : Text) (rest : List UInt8) : lossy (encode s ++ rest) = s ++ lossy rest := by
  induction s with
  | nil => rfl
  | cons c s ih => rw [encode_cons, List.append_assoc, lossy_encodeChar_append, ih, List.cons_append]

theorem lossy_encode (s : Text) : lossy (encode s) = s := by
  have hRead := lossy_encode_append s []
  rwa [List.append_nil, show lossy [] = [] from rfl, List.append_nil] at hRead

/-- Every ASCII character that is read is a byte that was there. -/
theorem mem_lossyFrom {skip : Nat} {bytes : List UInt8} {c : Char} (hMem : c ∈ lossyFrom skip bytes) (h : c.toNat < 128) :
    UInt8.ofNat c.toNat ∈ bytes := by
  induction bytes generalizing skip with
  | nil =>
    rw [lossyFrom] at hMem
    cases hMem
  | cons b bytes ih =>
    cases skip with
    | succ skip => exact List.mem_cons_of_mem b (ih hMem)
    | zero =>
      rw [lossyFrom] at hMem
      split at hMem
      · rename_i other hDecode
        obtain rfl | hRest := List.mem_cons.mp hMem
        · obtain ⟨rest, hBytes⟩ := eq_of_decodeChar hDecode
          rw [hBytes, encodeChar_ascii h]
          exact List.mem_append_left rest List.mem_cons_self
        · exact List.mem_cons_of_mem b (ih hRest)
      · obtain rfl | hRest := List.mem_cons.mp hMem
        · exact absurd h (by decide)
        · exact List.mem_cons_of_mem b (ih hRest)

theorem encode_ofNat_toNat {bytes : List UInt8} (h : ∀ b ∈ bytes, b.toNat < 128) :
    encode (bytes.map fun b => Char.ofNat b.toNat) = bytes := by
  induction bytes with
  | nil => rfl
  | cons b bytes ih =>
    obtain ⟨hByte, hRest⟩ := List.forall_mem_cons.mp h
    have hChar : (Char.ofNat b.toNat).toNat = b.toNat := by
      rw [Char.toNat_ofNat, if_pos]
      exact .inl (by omega)
    rw [List.map_cons, encode_cons, ih hRest, encodeChar_ascii (hChar.trans_lt hByte), hChar, UInt8.ofNat_toNat]
    rfl

theorem encode_lossy_of_ascii {bytes : List UInt8} (h : ∀ b ∈ bytes, b.toNat < 128) : encode (lossy bytes) = bytes := by
  have hRead := encode_ofNat_toNat h
  rw [← hRead, lossy_encode]

/-- What is read as ASCII only has been read as it is. -/
theorem encode_lossy_of_read {bytes : List UInt8} (h : ∀ b ∈ encode (lossy bytes), b.toNat < 128) :
    encode (lossy bytes) = bytes := by
  induction bytes with
  | nil => rfl
  | cons b bytes ih =>
    rw [lossy, lossyFrom] at h ⊢
    split
    · rename_i c hDecode
      rw [hDecode] at h
      simp only [encode_cons, List.forall_mem_append] at h ⊢
      have hAscii : c.toNat < 128 := by
        apply Nat.lt_of_not_le
        intro hHigh
        obtain ⟨first, more, hChar, -⟩ := encodeChar_eq_cons c
        have hFirst : first ∈ String.utf8EncodeChar c := hChar ▸ List.mem_cons_self
        exact absurd (high_of_mem_encodeChar hHigh hFirst) (Nat.not_le.mpr (h.1 first hFirst))
      have hSize : c.utf8Size = 1 := by
        rw [← String.length_utf8EncodeChar, encodeChar_ascii hAscii]
        rfl
      obtain ⟨rest, hBytes⟩ := eq_of_decodeChar hDecode
      rw [encodeChar_ascii hAscii] at hBytes ⊢
      rw [hSize] at h ⊢
      exact congrArg₂ List.cons (List.cons.inj hBytes).1.symm (ih h.2)
    · rename_i hDecode
      rw [hDecode] at h
      exact absurd (h 0xEF (List.mem_append_left _ (by decide))) (by decide)

/-! ## Beginnings of an encoding -/

/-- What is cut off an encoding is whole characters, and a part of one that is not ASCII. -/
theorem exists_of_prefix_encode {bytes : List UInt8} {s : Text} (h : bytes <+: encode s) :
    ∃ read part, bytes = encode read ++ part ∧ read <+: s ∧ ∀ b ∈ part, 128 ≤ b.toNat := by
  induction s generalizing bytes with
  | nil => exact ⟨[], [], List.prefix_nil.mp h, List.nil_prefix, List.forall_mem_nil _⟩
  | cons c s ih =>
    rw [encode_cons] at h
    obtain hWithin | ⟨rest, rfl⟩ := List.prefix_or_prefix_of_prefix h (List.prefix_append (String.utf8EncodeChar c) (encode s))
    · obtain hAscii | hHigh := Nat.lt_or_ge c.toNat 128
      · rw [encodeChar_ascii hAscii] at hWithin
        obtain rfl | rfl : bytes = [] ∨ bytes = [UInt8.ofNat c.toNat] := by
          obtain hNil | ⟨rest, rfl, hRest⟩ := List.prefix_cons_iff.mp hWithin
          · exact .inl hNil
          · exact .inr (congrArg _ (List.prefix_nil.mp hRest))
        · exact ⟨[], [], rfl, List.nil_prefix, List.forall_mem_nil _⟩
        · refine ⟨[c], [], ?_, List.prefix_append [c] s, List.forall_mem_nil _⟩
          rw [encode, List.flatMap_singleton, encodeChar_ascii hAscii, List.append_nil]
      · exact ⟨[], bytes, rfl, List.nil_prefix, fun b hMem => high_of_mem_encodeChar hHigh (hWithin.subset hMem)⟩
    · obtain ⟨read, part, rfl, hRead, hPart⟩ := ih ((List.prefix_append_right_inj _).mp h)
      refine ⟨c :: read, part, ?_, (List.prefix_cons_inj c).mpr hRead, hPart⟩
      rw [encode_cons, List.append_assoc]

theorem ofNat_toNat_inj {c mark : Char} (hMark : mark.toNat < 128) (h : UInt8.ofNat mark.toNat ∈ String.utf8EncodeChar c) :
    c = mark := by
  have hByte : (UInt8.ofNat mark.toNat).toNat = mark.toNat := by
    rw [UInt8.toNat_ofNat']
    exact Nat.mod_eq_of_lt (Nat.lt_trans hMark (by decide))
  apply Char.toNat_inj.mp
  exact (eq_of_mem_encodeChar h (hByte.trans_lt hMark)).trans hByte

/-- The first byte of an encoding is a byte of the first character. -/
theorem exists_head_of_prefix_encode {b : UInt8} {rest : List UInt8} {s : Text} (h : b :: rest <+: encode s) :
    ∃ c, s.head? = some c ∧ b ∈ String.utf8EncodeChar c := by
  cases s with
  | nil => exact absurd (List.prefix_nil.mp h) (List.cons_ne_nil b rest)
  | cons c s =>
    refine ⟨c, rfl, ?_⟩
    obtain ⟨first, more, hBytes, -⟩ := encodeChar_eq_cons c
    rw [encode_cons, hBytes, List.cons_append, List.cons_prefix_cons] at h
    rw [h.1, hBytes]
    exact List.mem_cons_self

theorem mem_encode_iff {mark : Char} (hMark : mark.toNat < 128) {s : Text} :
    UInt8.ofNat mark.toNat ∈ encode s ↔ mark ∈ s := by
  rw [encode, List.mem_flatMap]
  constructor
  · rintro ⟨c, hMem, hByte⟩
    exact ofNat_toNat_inj hMark hByte ▸ hMem
  · intro hMem
    exact ⟨mark, hMem, by rw [encodeChar_ascii hMark]; exact List.mem_cons_self⟩

theorem encode_eq_nil {s : Text} (h : encode s = []) : s = [] := by
  apply Text.eq_nil_of_byteLength
  rw [← length_encode, h, List.length_nil]

/-- A byte that is an ASCII character splits the text at the character. -/
theorem exists_split_encode (mark : Char) (hMark : mark.toNat < 128) {s : Text} (before : List UInt8) {after : List UInt8}
    (h : encode s = before ++ UInt8.ofNat mark.toNat :: after) :
    ∃ front back, s = front ++ mark :: back ∧ before = encode front ∧ after = encode back := by
  induction s generalizing before with
  | nil => exact absurd h.symm (List.append_ne_nil_of_right_ne_nil before (List.cons_ne_nil _ _))
  | cons c s ih =>
    rw [encode_cons] at h
    obtain ⟨rest, rfl, hRest⟩ | ⟨rest, hChar, hRest⟩ := List.append_eq_append_iff.mp h
    · obtain ⟨front, back, rfl, rfl, rfl⟩ := ih rest hRest
      exact ⟨c :: front, back, rfl, (encode_cons c front).symm, rfl⟩
    · cases rest with
      | nil =>
        obtain ⟨front, back, rfl, hFront, rfl⟩ := ih [] hRest.symm
        rw [encode_eq_nil hFront.symm]
        refine ⟨[c], back, rfl, ?_, rfl⟩
        rw [encode, List.flatMap_singleton, hChar, List.append_nil]
      | cons b rest =>
        obtain ⟨rfl, rfl⟩ := List.cons.inj hRest
        obtain rfl : c = mark := ofNat_toNat_inj hMark (hChar ▸ List.mem_append_right before List.mem_cons_self)
        rw [encodeChar_ascii hMark] at hChar
        obtain ⟨rfl, rfl⟩ : before = [] ∧ rest = [] := by
          have hLength := congrArg List.length hChar
          simp only [List.length_append, List.length_cons, List.length_nil] at hLength
          exact ⟨List.length_eq_zero_iff.mp (by omega), List.length_eq_zero_iff.mp (by omega)⟩
        exact ⟨[], s, rfl, rfl, rfl⟩

/-- A byte that is an ASCII character ends the text before the character. -/
theorem takeWhile_encode {mark : Char} (hMark : mark.toNat < 128) (s : Text) :
    (encode s).takeWhile (· != UInt8.ofNat mark.toNat) = encode (s.takeWhile (· != mark)) := by
  induction s with
  | nil => rfl
  | cons c s ih =>
    rw [encode_cons, List.takeWhile_cons]
    obtain rfl | hOther := eq_or_ne c mark
    · rw [encodeChar_ascii hMark, List.singleton_append, List.takeWhile_cons]
      simp [encode]
    · have hFree : ∀ b ∈ String.utf8EncodeChar c, (b != UInt8.ofNat mark.toNat) = true := by
        intro b hMem
        rw [bne_iff_ne]
        rintro rfl
        exact hOther (ofNat_toNat_inj hMark hMem)
      rw [List.takeWhile_append_of_pos hFree, ih, if_pos (bne_iff_ne.mpr hOther), encode_cons]

end Utf8

end Pigeon.Library
