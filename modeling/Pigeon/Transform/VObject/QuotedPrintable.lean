import Pigeon.Library.Lossy

/-! # Quoted-printable octets

The parser of an octet takes a sign, which is no hexadecimal digit. What is decoded is the octets of the escapes
wherever no plus sign stands between an equals sign and a digit.
-/
namespace Pigeon.Transform.VObject

open Library

set_option autoImplicit false

/-- `byte as char` -/
def latin1 (b : UInt8) : Char := Char.ofNat b.toNat

/-- `char::to_digit(16)` -/
def hexValue (c : Char) : Option Nat :=
  if '0' ≤ c ∧ c ≤ '9' then some (c.toNat - '0'.toNat)
  else if 'a' ≤ c ∧ c ≤ 'f' then some (c.toNat - 'a'.toNat + 10)
  else if 'A' ≤ c ∧ c ≤ 'F' then some (c.toNat - 'A'.toNat + 10)
  else none

def pushDigit (value : Nat) (b : UInt8) : Option Nat := do
  let digit ← hexValue (latin1 b)
  if value * 16 + digit < 256 then some (value * 16 + digit) else none

/-- `u8::from_str_radix` of base 16, a leading plus included. -/
def octetFromStrRadix (digits : List UInt8) : Option UInt8 :=
  if digits = [] ∨ digits = [0x2B] ∨ digits = [0x2D] then none
  else ((if digits.head? = some 0x2B then digits.tail else digits).foldlM pushDigit 0).map UInt8.ofNat

/-- The loop of `decode_quoted_printable`. -/
def qpOctets : List UInt8 → List UInt8
  | [] => []
  | [b] => [b]
  | [b, next] => [b, next]
  | b :: hi :: lo :: rest =>
    if b = 0x3D then
      match octetFromStrRadix (Utf8.encode (Utf8.lossy [hi, lo])) with
      | some octet => octet :: qpOctets rest
      | none => b :: qpOctets (hi :: lo :: rest)
    else b :: qpOctets (hi :: lo :: rest)

def decodeQuotedPrintable (text : Text) : Text :=
  let out := qpOctets (Utf8.encode text)
  match Utf8.decode out with
  | some text => text
  | none => out.map latin1

/-! ## The octets that are denoted -/

def hexOctet (hi lo : UInt8) : Option UInt8 := do
  let x ← hexValue (latin1 hi)
  let y ← hexValue (latin1 lo)
  return UInt8.ofNat (x * 16 + y)

/-- An equals sign and two hexadecimal digits begin the bytes. -/
def BeginsEscape (bytes : List UInt8) : Prop :=
  ∃ hi lo rest octet, bytes = 0x3D :: hi :: lo :: rest ∧ hexOctet hi lo = some octet

/-- The reference decoding: escapes are replaced from left to right, the other bytes copied. -/
inductive Denotes : List UInt8 → List UInt8 → Prop
  | nil : Denotes [] []
  | escape {hi lo octet : UInt8} {rest octets : List UInt8} (hOctet : hexOctet hi lo = some octet)
      (h : Denotes rest octets) : Denotes (0x3D :: hi :: lo :: rest) (octet :: octets)
  | verbatim {b : UInt8} {rest octets : List UInt8} (hPlain : ¬ BeginsEscape (b :: rest)) (h : Denotes rest octets) :
      Denotes (b :: rest) (b :: octets)

/-- The bytes with any of them escaped, an equals sign always. -/
inductive Encodes : List UInt8 → List UInt8 → Prop
  | nil : Encodes [] []
  | escape {hi lo octet : UInt8} {octets rest : List UInt8} (hOctet : hexOctet hi lo = some octet)
      (h : Encodes octets rest) : Encodes (octet :: octets) (0x3D :: hi :: lo :: rest)
  | literal {b : UInt8} {octets rest : List UInt8} (hPlain : b ≠ 0x3D) (h : Encodes octets rest) :
      Encodes (b :: octets) (b :: rest)

/-- Quoted-printable is decoded as it should be. -/
structure DecodesOctets (text : Text) : Prop where
  octets : Denotes (Utf8.encode text) (qpOctets (Utf8.encode text))
  utf8 : ∀ s, Utf8.encode s = qpOctets (Utf8.encode text) → decodeQuotedPrintable text = s
  otherwise : (∀ s, Utf8.encode s ≠ qpOctets (Utf8.encode text)) →
    decodeQuotedPrintable text = (qpOctets (Utf8.encode text)).map latin1
  inverts : ∀ s, Encodes (Utf8.encode s) (Utf8.encode text) → decodeQuotedPrintable text = s
  verbatim : (∀ bytes, bytes <:+ Utf8.encode text → ¬ BeginsEscape bytes) → decodeQuotedPrintable text = text

/-- A plus sign stands where the first digit of an escape should. -/
def SignedEscape (text : Text) : Prop :=
  ∃ before digit after, text = before ++ '=' :: '+' :: digit :: after ∧ (hexValue digit).isSome

/-! ## The parser of an octet -/

theorem hexValue_lt {c : Char} {n : Nat} (h : hexValue c = some n) : n < 16 ∧ c.toNat < 128 := by
  have hNat {first last : Char} (hRange : first ≤ c ∧ c ≤ last) : first.toNat ≤ c.toNat ∧ c.toNat ≤ last.toNat := hRange
  rw [hexValue] at h
  split_ifs at h with hDigit hLower hUpper
  · obtain ⟨hFirst, hLast⟩ := hNat hDigit
    obtain rfl := Option.some.inj h
    simp only [Char.reduceToNat] at hFirst hLast ⊢
    omega
  · obtain ⟨hFirst, hLast⟩ := hNat hLower
    obtain rfl := Option.some.inj h
    simp only [Char.reduceToNat] at hFirst hLast ⊢
    omega
  · obtain ⟨hFirst, hLast⟩ := hNat hUpper
    obtain rfl := Option.some.inj h
    simp only [Char.reduceToNat] at hFirst hLast ⊢
    omega

theorem toNat_latin1 (b : UInt8) : (latin1 b).toNat = b.toNat := by
  have hByte := b.toNat_lt
  rw [latin1, Char.toNat_ofNat, if_pos]
  exact .inl (by omega)

theorem toNat_lt_of_hexValue {b : UInt8} {n : Nat} (h : hexValue (latin1 b) = some n) : b.toNat < 128 :=
  toNat_latin1 b ▸ (hexValue_lt h).2

theorem ascii_of_foldlM_pushDigit {digits : List UInt8} {value result : Nat} (h : digits.foldlM pushDigit value = some result) :
    ∀ b ∈ digits, b.toNat < 128 := by
  induction digits generalizing value with
  | nil => exact List.forall_mem_nil _
  | cons b digits ih =>
    rw [List.foldlM_cons] at h
    obtain ⟨next, hNext, hRest⟩ := Option.bind_eq_some_iff.mp h
    obtain ⟨digit, hDigit, -⟩ := Option.bind_eq_some_iff.mp hNext
    exact List.forall_mem_cons.mpr ⟨toNat_lt_of_hexValue hDigit, ih hRest⟩

theorem ascii_of_octetFromStrRadix {digits : List UInt8} {octet : UInt8} (h : octetFromStrRadix digits = some octet) :
    ∀ b ∈ digits, b.toNat < 128 := by
  rw [octetFromStrRadix] at h
  split at h
  · cases h
  · obtain ⟨value, hValue, -⟩ := Option.map_eq_some_iff.mp h
    split at hValue
    · rename_i hPlus
      obtain ⟨rest, rfl⟩ := List.head?_eq_some_iff.mp hPlus
      exact List.forall_mem_cons.mpr ⟨by decide, ascii_of_foldlM_pushDigit hValue⟩
    · exact ascii_of_foldlM_pushDigit hValue

/-- The octet is parsed from the bytes themselves, read as text or not. -/
theorem octetFromStrRadix_lossy (bytes : List UInt8) :
    octetFromStrRadix (Utf8.encode (Utf8.lossy bytes)) = octetFromStrRadix bytes := by
  refine Option.ext fun octet => ⟨fun h => ?_, fun h => ?_⟩
  · rwa [Utf8.encode_lossy_of_read (ascii_of_octetFromStrRadix h)] at h
  · rwa [Utf8.encode_lossy_of_ascii (ascii_of_octetFromStrRadix h)]

theorem hexValue_latin1_plus : hexValue (latin1 0x2B) = none := by
  decide

theorem hexValue_latin1_equals : hexValue (latin1 0x3D) = none := by
  decide

theorem pushDigit_zero (b : UInt8) : pushDigit 0 b = hexValue (latin1 b) := by
  cases hDigit : hexValue (latin1 b) with
  | none =>
    rw [pushDigit, hDigit]
    rfl
  | some digit =>
    have hBound := (hexValue_lt hDigit).1
    rw [pushDigit, hDigit, Option.bind_eq_bind, Option.bind_some, if_pos (by omega)]
    congr 1
    omega

theorem octetFromStrRadix_signed (lo : UInt8) :
    octetFromStrRadix [0x2B, lo] = (hexValue (latin1 lo)).map UInt8.ofNat := by
  rw [octetFromStrRadix, if_neg (by simp), if_pos (by rfl), List.tail_cons, List.foldlM_cons, pushDigit_zero]
  cases hexValue (latin1 lo) with
  | none => rfl
  | some digit => rfl

theorem octetFromStrRadix_unsigned {hi : UInt8} (hSign : hi ≠ 0x2B) (lo : UInt8) :
    octetFromStrRadix [hi, lo] = hexOctet hi lo := by
  rw [octetFromStrRadix, if_neg (by simp), if_neg (by simpa using hSign), List.foldlM_cons, pushDigit_zero, hexOctet]
  cases hHi : hexValue (latin1 hi) with
  | none => rfl
  | some x =>
    rw [Option.bind_eq_bind, Option.bind_some, List.foldlM_cons, pushDigit]
    cases hLo : hexValue (latin1 lo) with
    | none => rfl
    | some y =>
      have hX := (hexValue_lt hHi).1
      have hY := (hexValue_lt hLo).1
      rw [Option.bind_eq_bind, Option.bind_some, if_pos (by omega)]
      rfl

theorem hexOctet_eq_some {hi lo octet : UInt8} (h : hexOctet hi lo = some octet) :
    ∃ x y, hexValue (latin1 hi) = some x ∧ hexValue (latin1 lo) = some y ∧ octet = UInt8.ofNat (x * 16 + y) := by
  obtain ⟨x, hX, hRest⟩ := Option.bind_eq_some_iff.mp h
  obtain ⟨y, hY, hOctet⟩ := Option.bind_eq_some_iff.mp hRest
  exact ⟨x, y, hX, hY, (Option.some.inj hOctet).symm⟩

/-- Neither of two digits is a plus or an equals sign. -/
theorem ne_of_hexOctet {hi lo octet : UInt8} (h : hexOctet hi lo = some octet) : hi ≠ 0x2B ∧ hi ≠ 0x3D ∧ lo ≠ 0x3D := by
  obtain ⟨x, y, hX, hY, -⟩ := hexOctet_eq_some h
  refine ⟨?_, ?_, ?_⟩
  · rintro rfl
    rw [hexValue_latin1_plus] at hX
    cases hX
  · rintro rfl
    rw [hexValue_latin1_equals] at hX
    cases hX
  · rintro rfl
    rw [hexValue_latin1_equals] at hY
    cases hY

/-! ## The loop -/

theorem qpOctets_escape {hi lo octet : UInt8} (h : octetFromStrRadix [hi, lo] = some octet) (rest : List UInt8) :
    qpOctets (0x3D :: hi :: lo :: rest) = octet :: qpOctets rest := by
  rw [qpOctets, if_pos rfl, octetFromStrRadix_lossy, h]

theorem qpOctets_plain {b : UInt8} {rest : List UInt8}
    (h : ∀ hi lo more, b :: rest = 0x3D :: hi :: lo :: more → octetFromStrRadix [hi, lo] = none) :
    qpOctets (b :: rest) = b :: qpOctets rest := by
  match rest with
  | [] => rfl
  | [next] => rfl
  | hi :: lo :: more =>
    rw [qpOctets]
    split
    · rename_i hEquals
      rw [octetFromStrRadix_lossy, h hi lo more (by rw [hEquals])]
    · rfl

/-- The bytes of a signed escape. -/
def SignedBytes (bytes : List UInt8) : Prop :=
  ∃ before lo after, bytes = before ++ 0x3D :: 0x2B :: lo :: after ∧ (hexValue (latin1 lo)).isSome

theorem signedBytes_cons {b : UInt8} {rest : List UInt8} : SignedBytes (b :: rest) ↔
    (∃ lo after, b :: rest = 0x3D :: 0x2B :: lo :: after ∧ (hexValue (latin1 lo)).isSome) ∨ SignedBytes rest := by
  constructor
  · rintro ⟨before, lo, after, hBytes, hDigit⟩
    cases before with
    | nil => exact .inl ⟨lo, after, hBytes, hDigit⟩
    | cons first before => exact .inr ⟨before, lo, after, (List.cons.inj hBytes).2, hDigit⟩
  · rintro (⟨lo, after, hBytes, hDigit⟩ | ⟨before, lo, after, rfl, hDigit⟩)
    · exact ⟨[], lo, after, hBytes, hDigit⟩
    · exact ⟨b :: before, lo, after, rfl, hDigit⟩

theorem signedBytes_of_ne {b : UInt8} (h : b ≠ 0x3D) {rest : List UInt8} : SignedBytes (b :: rest) ↔ SignedBytes rest := by
  rw [signedBytes_cons]
  apply or_iff_right
  rintro ⟨lo, after, hBytes, -⟩
  exact h (List.cons.inj hBytes).1

theorem signedBytes_escape {hi lo octet : UInt8} (h : hexOctet hi lo = some octet) {rest : List UInt8} :
    SignedBytes (0x3D :: hi :: lo :: rest) ↔ SignedBytes rest := by
  obtain ⟨hPlus, hHi, hLo⟩ := ne_of_hexOctet h
  rw [signedBytes_cons, signedBytes_of_ne hHi, signedBytes_of_ne hLo]
  apply or_iff_right
  rintro ⟨digit, after, hBytes, -⟩
  exact hPlus (List.cons.inj (List.cons.inj hBytes).2).1

theorem qpOctets_of_not_signed {b : UInt8} {rest : List UInt8} (hPlain : ¬ BeginsEscape (b :: rest))
    (hSigned : ¬ ∃ lo after, b :: rest = 0x3D :: 0x2B :: lo :: after ∧ (hexValue (latin1 lo)).isSome) :
    qpOctets (b :: rest) = b :: qpOctets rest := by
  apply qpOctets_plain
  intro hi lo more hBytes
  rw [Option.eq_none_iff_forall_ne_some]
  intro octet hOctet
  obtain rfl | hUnsigned := eq_or_ne hi 0x2B
  · rw [octetFromStrRadix_signed] at hOctet
    obtain ⟨digit, hDigit, -⟩ := Option.map_eq_some_iff.mp hOctet
    exact hSigned ⟨lo, more, hBytes, Option.isSome_of_eq_some hDigit⟩
  · rw [octetFromStrRadix_unsigned hUnsigned] at hOctet
    exact hPlain ⟨hi, lo, more, octet, hBytes, hOctet⟩

theorem denotes_of_not_signed {bytes : List UInt8} (h : ¬ SignedBytes bytes) : Denotes bytes (qpOctets bytes) := by
  induction hLength : bytes.length using Nat.strong_induction_on generalizing bytes with
  | _ length ih =>
    subst hLength
    cases bytes with
    | nil => exact .nil
    | cons b rest =>
      obtain ⟨hi, lo, more, octet, hBytes, hOctet⟩ | hPlain := Classical.em (BeginsEscape (b :: rest))
      · rw [hBytes] at h ih ⊢
        rw [qpOctets_escape ((octetFromStrRadix_unsigned (ne_of_hexOctet hOctet).1 lo).trans hOctet)]
        rw [signedBytes_escape hOctet] at h
        refine .escape hOctet (ih _ ?_ h rfl)
        simp only [List.length_cons]
        omega
      · rw [signedBytes_cons, not_or] at h
        rw [qpOctets_of_not_signed hPlain h.1]
        exact .verbatim hPlain (ih _ (Nat.lt_succ_self _) h.2 rfl)

theorem Denotes.not_signed {bytes octets : List UInt8} (h : Denotes bytes octets) (hCode : qpOctets bytes = octets) :
    ¬ SignedBytes bytes := by
  induction h with
  | nil =>
    rintro ⟨before, lo, after, hBytes, -⟩
    exact absurd hBytes.symm (List.append_ne_nil_of_right_ne_nil before (List.cons_ne_nil _ _))
  | escape hOctet _ ih =>
    rw [qpOctets_escape ((octetFromStrRadix_unsigned (ne_of_hexOctet hOctet).1 _).trans hOctet)] at hCode
    rw [signedBytes_escape hOctet]
    exact ih (List.cons.inj hCode).2
  | @verbatim b rest octets hPlain _ ih =>
    -- a signed escape would have left a value below sixteen in place of the equals sign
    have hSigned : ¬ ∃ lo after, b :: rest = 0x3D :: 0x2B :: lo :: after ∧ (hexValue (latin1 lo)).isSome := by
      rintro ⟨lo, after, hBytes, hDigit⟩
      obtain ⟨digit, hDigit⟩ := Option.isSome_iff_exists.mp hDigit
      have hParsed : octetFromStrRadix [0x2B, lo] = some (UInt8.ofNat digit) := by
        rw [octetFromStrRadix_signed, hDigit, Option.map_some]
      rw [hBytes, qpOctets_escape hParsed] at hCode
      have hValue := congrArg UInt8.toNat ((List.cons.inj hCode).1.trans (List.cons.inj hBytes).1)
      have hBound := (hexValue_lt hDigit).1
      rw [UInt8.toNat_ofNat'] at hValue
      simp only [UInt8.reduceToNat] at hValue
      omega
    rw [qpOctets_of_not_signed hPlain hSigned] at hCode
    rw [signedBytes_cons, not_or]
    exact ⟨hSigned, ih (List.cons.inj hCode).2⟩

theorem denotes_qpOctets_iff {bytes : List UInt8} : Denotes bytes (qpOctets bytes) ↔ ¬ SignedBytes bytes :=
  ⟨fun h => h.not_signed rfl, denotes_of_not_signed⟩

/-! ## Encodings and plain text -/

theorem Encodes.qpOctets {octets bytes : List UInt8} (h : Encodes octets bytes) : qpOctets bytes = octets := by
  induction h with
  | nil => rfl
  | escape hOctet _ ih =>
    rw [qpOctets_escape ((octetFromStrRadix_unsigned (ne_of_hexOctet hOctet).1 _).trans hOctet), ih]
  | literal hPlain _ ih =>
    rw [qpOctets_plain, ih]
    exact fun hi lo more hBytes => absurd (List.cons.inj hBytes).1 hPlain

theorem Denotes.eq_of_no_escape {bytes octets : List UInt8} (h : Denotes bytes octets)
    (hNone : ∀ suffix, suffix <:+ bytes → ¬ BeginsEscape suffix) : octets = bytes := by
  induction h with
  | nil => rfl
  | @escape hi lo octet rest octets hOctet _ _ => exact absurd ⟨hi, lo, rest, octet, rfl, hOctet⟩ (hNone _ List.suffix_rfl)
  | @verbatim b rest octets _ _ ih =>
    rw [ih fun suffix hSuffix => hNone suffix (hSuffix.trans (List.suffix_cons b rest))]

theorem decodeQuotedPrintable_of_decode {text s : Text} (h : Utf8.encode s = qpOctets (Utf8.encode text)) :
    decodeQuotedPrintable text = s := by
  simp only [decodeQuotedPrintable]
  rw [← h, Utf8.decode_encode]

theorem decodeQuotedPrintable_latin1 {text : Text} (h : ∀ s, Utf8.encode s ≠ qpOctets (Utf8.encode text)) :
    decodeQuotedPrintable text = (qpOctets (Utf8.encode text)).map latin1 := by
  simp only [decodeQuotedPrintable]
  cases hDecode : Utf8.decode (qpOctets (Utf8.encode text)) with
  | none => rfl
  | some s => exact absurd (Utf8.encode_of_decode hDecode) (h s)

theorem signedBytes_encode_iff {text : Text} : SignedBytes (Utf8.encode text) ↔ SignedEscape text := by
  constructor
  · rintro ⟨before, lo, after, hBytes, hDigit⟩
    obtain ⟨digit, hValue⟩ := Option.isSome_iff_exists.mp hDigit
    have hAscii : (latin1 lo).toNat < 128 := (hexValue_lt hValue).2
    have hLo : lo = UInt8.ofNat (latin1 lo).toNat := by
      rw [toNat_latin1, UInt8.ofNat_toNat]
    rw [hLo] at hBytes
    obtain ⟨front, behind, rfl, -, hBehind⟩ := Utf8.exists_split_encode '=' (by decide) before hBytes
    obtain ⟨empty, back, rfl, hEmpty, hBack⟩ := Utf8.exists_split_encode '+' (by decide) [] hBehind.symm
    obtain ⟨none, rest, rfl, hNone, -⟩ := Utf8.exists_split_encode (latin1 lo) hAscii [] hBack.symm
    rw [Utf8.encode_eq_nil hEmpty.symm, Utf8.encode_eq_nil hNone.symm]
    exact ⟨front, latin1 lo, rest, rfl, hDigit⟩
  · rintro ⟨before, digit, after, rfl, hDigit⟩
    obtain ⟨value, hValue⟩ := Option.isSome_iff_exists.mp hDigit
    have hAscii : digit.toNat < 128 := (hexValue_lt hValue).2
    refine ⟨Utf8.encode before, UInt8.ofNat digit.toNat, Utf8.encode after, ?_, ?_⟩
    · rw [Utf8.encode_append, Utf8.encode_cons, Utf8.encode_cons, Utf8.encode_cons, Utf8.encodeChar_ascii hAscii]
      rfl
    · have hChar : latin1 (UInt8.ofNat digit.toNat) = digit := by
        rw [← Char.toNat_inj, toNat_latin1, UInt8.toNat_ofNat']
        omega
      rwa [hChar]

/-- The octets are the reference's, with all that follows, where no signed escape is. -/
theorem decodesOctets_iff (text : Text) : DecodesOctets text ↔ ¬ SignedEscape text := by
  constructor
  · intro h
    rw [← signedBytes_encode_iff]
    exact denotes_qpOctets_iff.mp h.octets
  · intro hUnsigned
    rw [← signedBytes_encode_iff] at hUnsigned
    have hDenotes := denotes_of_not_signed hUnsigned
    refine ⟨hDenotes, fun s hRead => decodeQuotedPrintable_of_decode hRead, decodeQuotedPrintable_latin1, ?_, ?_⟩
    · intro s hEncodes
      exact decodeQuotedPrintable_of_decode hEncodes.qpOctets.symm
    · intro hNone
      exact decodeQuotedPrintable_of_decode (hDenotes.eq_of_no_escape hNone).symm

/-- Nothing in the text is an escape, and it is decoded to another. -/
theorem signed_not_decodesOctets :
    decodeQuotedPrintable "=+5".toList = ['\x05'] ∧ ¬ DecodesOctets "=+5".toList := by
  refine ⟨by decide +kernel, fun h => ?_⟩
  exact denotes_qpOctets_iff.mp h.octets ⟨[], 0x35, [], rfl, rfl⟩

end Pigeon.Transform.VObject
