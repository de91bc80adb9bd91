import Pigeon.Library.Lz77
import Pigeon.Transform.Lzo1x

/-! # LZO1X instructions and their bytes

A sequence of instructions is written byte by byte, and decompression gives what it denotes.
-/
namespace Pigeon.Transform.Lzo1x

open Library Lz77

set_option autoImplicit false

/-- The classes of matches, each with its own ranges of distances and lengths. -/
inductive Form where
  | m1
  | m2
  | m3
  | m4
deriving DecidableEq, Repr

inductive Instruction where
  | run (bytes : List UInt8)
  | copy (form : Form) (distance length : Nat) (trailing : List UInt8)
deriving DecidableEq, Repr

/-- Which matches a class can express in a state. -/
def Form.Fits (state distance length : Nat) : Form → Prop
  | m1 =>
    (1 ≤ state ∧ state ≤ 3 ∧ length = 2 ∧ 1 ≤ distance ∧ distance ≤ 1024) ∨
      (state = 4 ∧ length = 3 ∧ 2049 ≤ distance ∧ distance ≤ 3072)
  | m2 => 3 ≤ length ∧ length ≤ 8 ∧ 1 ≤ distance ∧ distance ≤ 2048
  | m3 => 3 ≤ length ∧ 1 ≤ distance ∧ distance ≤ 16384
  | m4 => 3 ≤ length ∧ 16385 ≤ distance ∧ distance ≤ 49151

theorem Form.Fits.pos {form : Form} {state distance length : Nat} (h : form.Fits state distance length) : 0 < distance := by
  cases form with
  | m1 =>
    obtain hNear | hFar := h
    · exact hNear.2.2.2.1
    · exact Nat.zero_lt_of_lt hFar.2.2.1
  | m2 => exact h.2.2.1
  | m3 => exact h.2.1
  | m4 => exact Nat.zero_lt_of_lt h.2.1

namespace Instruction

/-- A run of literals follows state 0 only, and no match reaches before the output. -/
def Fits (state size : Nat) : Instruction → Prop
  | run bytes => state = 0 ∧ 4 ≤ bytes.length
  | copy form distance length trailing => form.Fits state distance length ∧ distance ≤ size ∧ trailing.length ≤ 3

def nextState : Instruction → Nat
  | run _ => 4
  | copy _ _ _ trailing => trailing.length

def size : Instruction → Nat
  | run bytes => bytes.length
  | copy _ _ length trailing => length + trailing.length

/-- What the instruction adds to the output. -/
def output (out : List UInt8) : Instruction → List UInt8
  | run bytes => bytes
  | copy _ distance length trailing => matched distance length out ++ trailing

end Instruction

/-- The instructions can follow a state with so much output. -/
def WellFormed (state size : Nat) : List Instruction → Prop
  | [] => True
  | instruction :: rest =>
    instruction.Fits state size ∧ WellFormed instruction.nextState (size + instruction.size) rest

/-- What the instructions make of the output so far. -/
def denote (out : List UInt8) : List Instruction → List UInt8
  | [] => out
  | instruction :: rest => denote (out ++ instruction.output out) rest

/-! ## Bytes -/

/-- A length that takes zeros and a last byte, which is not zero. -/
def zeroRunBytes (extra : Nat) : List UInt8 :=
  List.replicate ((extra - 1) / 255) 0 ++ [UInt8.ofNat (extra - (extra - 1) / 255 * 255)]

/-- The bits of a length within its opcode. -/
def lengthBits (limit length : Nat) : Nat := if length ≤ limit then length else 0

theorem lengthBits_le (limit length : Nat) : lengthBits limit length ≤ limit := by
  rw [lengthBits]
  split
  · assumption
  · exact Nat.zero_le limit

/-- The bytes that extend a length. -/
def lengthBytes (limit length : Nat) : List UInt8 := if length ≤ limit then [] else zeroRunBytes (length - limit)

def le16Bytes (v : Nat) : List UInt8 := [UInt8.ofNat (v % 256), UInt8.ofNat (v / 256)]

/-- The bytes of an instruction before its literals. -/
def Instruction.head (state : Nat) : Instruction → List UInt8
  | run bytes => UInt8.ofNat (lengthBits 15 (bytes.length - 3)) :: lengthBytes 15 (bytes.length - 3)
  | copy .m1 distance _ trailing =>
    let offset := distance - (if state = 4 then 2049 else 1)
    [UInt8.ofNat (offset % 4 * 4 + trailing.length), UInt8.ofNat (offset / 4)]
  | copy .m2 distance length trailing =>
    [UInt8.ofNat ((length - 1) * 32 + (distance - 1) % 8 * 4 + trailing.length), UInt8.ofNat ((distance - 1) / 8)]
  | copy .m3 distance length trailing =>
    UInt8.ofNat (32 + lengthBits 31 (length - 2)) :: lengthBytes 31 (length - 2) ++
      le16Bytes ((distance - 1) * 4 + trailing.length)
  | copy .m4 distance length trailing =>
    UInt8.ofNat (16 + (distance - 16384) / 16384 * 8 + lengthBits 7 (length - 2)) :: lengthBytes 7 (length - 2) ++
      le16Bytes ((distance - 16384) % 16384 * 4 + trailing.length)

def Instruction.literals : Instruction → List UInt8
  | run bytes => bytes
  | copy _ _ _ trailing => trailing

def endMarker : List UInt8 := [0x11, 0x00, 0x00]

def encode (state : Nat) : List Instruction → List UInt8
  | [] => endMarker
  | instruction :: rest => instruction.head state ++ instruction.literals ++ encode instruction.nextState rest

/-- The literals before the first instruction, if there are any, and the instructions. -/
structure Sequence where
  initial : List UInt8
  instructions : List Instruction

namespace Sequence

def state (sequence : Sequence) : Nat := if sequence.initial.length < 4 then sequence.initial.length else 4

def WellFormed (sequence : Sequence) : Prop :=
  sequence.initial.length ≤ 238 ∧ Lzo1x.WellFormed sequence.state sequence.initial.length sequence.instructions

def denote (sequence : Sequence) : List UInt8 := Lzo1x.denote sequence.initial sequence.instructions

def encode (sequence : Sequence) : List UInt8 :=
  (if sequence.initial = [] then [] else UInt8.ofNat (17 + sequence.initial.length) :: sequence.initial) ++
    Lzo1x.encode sequence.state sequence.instructions

end Sequence

/-- The literal-only encoder of the tests. -/
def lzoLiteral (data : List UInt8) : List UInt8 :=
  let excess := data.length - 18
  let zeros := (excess - 1) / 255
  [0] ++ List.replicate zeros 0 ++ [UInt8.ofNat (excess - zeros * 255)] ++ data ++ [0x11, 0x00, 0x00]

/-! ## Reading -/

/-- The bytes are ahead of the decoder, and its lengths are words. -/
structure Ready (d : Decoder) (bytes : List UInt8) : Prop where
  ahead : d.src.drop d.ip = bytes
  inside : d.ip ≤ d.src.length
  source : d.src.length < wordSize
  bound : d.maxLen < wordSize

namespace Decoder

def skip (d : Decoder) (n : Nat) : Decoder := { d with ip := d.ip + n }

def emit (d : Decoder) (bytes : List UInt8) : Decoder := { d with out := d.out ++ bytes }

@[simp] theorem skip_src (d : Decoder) (n : Nat) : (d.skip n).src = d.src := rfl

@[simp] theorem skip_out (d : Decoder) (n : Nat) : (d.skip n).out = d.out := rfl

@[simp] theorem skip_maxLen (d : Decoder) (n : Nat) : (d.skip n).maxLen = d.maxLen := rfl

@[simp] theorem emit_src (d : Decoder) (bytes : List UInt8) : (d.emit bytes).src = d.src := rfl

@[simp] theorem emit_out (d : Decoder) (bytes : List UInt8) : (d.emit bytes).out = d.out ++ bytes := rfl

@[simp] theorem emit_maxLen (d : Decoder) (bytes : List UInt8) : (d.emit bytes).maxLen = d.maxLen := rfl

theorem skip_skip (d : Decoder) (m n : Nat) : (d.skip m).skip n = d.skip (m + n) := by
  rw [skip, skip, skip, Nat.add_assoc]

end Decoder

variable {d : Decoder} {rest : List UInt8}

theorem Ready.length_eq {bytes : List UInt8} (h : Ready d bytes) : d.ip + bytes.length = d.src.length := by
  have hInside := h.inside
  rw [← h.ahead, List.length_drop]
  omega

theorem Ready.skip {bytes : List UInt8} (h : Ready d (bytes ++ rest)) : Ready (d.skip bytes.length) rest := by
  have hLength := h.length_eq
  rw [List.length_append] at hLength
  refine ⟨?_, ?_, h.source, h.bound⟩
  · rw [Decoder.skip, ← List.drop_drop, h.ahead, List.drop_left]
  · rw [Decoder.skip]
    dsimp only
    omega

theorem Ready.skip_one {b : UInt8} (h : Ready d (b :: rest)) : Ready (d.skip 1) rest := by
  have hSingle : Ready d ([b] ++ rest) := h
  exact hSingle.skip

theorem Ready.emit {bytes : List UInt8} (h : Ready d bytes) (more : List UInt8) : Ready (d.emit more) bytes :=
  ⟨h.ahead, h.inside, h.source, h.bound⟩

theorem usize_run {value : Nat} (h : value < wordSize) (d : Decoder) : usize value d = .ok value d := by
  rw [usize, if_pos h]
  rfl

theorem index_run {bytes : List UInt8} {position : Nat} {value : UInt8} (h : bytes[position]? = some value) (d : Decoder) :
    index bytes position d = .ok value d := by
  rw [index, h]
  rfl

namespace Decoder

theorem byte_run {b : UInt8} (h : Ready d (b :: rest)) : byte d = .ok b.toNat (d.skip 1) := by
  have hByte : d.src[d.ip]? = some b := by
    rw [← List.head?_drop, h.ahead]
    rfl
  have hNext : d.ip + 1 < wordSize := by
    have hLength := h.length_eq
    have hSource := h.source
    rw [List.length_cons] at hLength
    omega
  rw [byte, run_get_bind, hByte]
  dsimp only
  rw [run_bind_ok (usize_run hNext d)]
  rfl

theorem opcode_run {n : Nat} (hN : n < 256) (h : Ready d (UInt8.ofNat n :: rest)) : byte d = .ok n (d.skip 1) := by
  rw [byte_run h, UInt8.toNat_ofNat_of_lt' hN]

theorem le16_run {v : Nat} (hV : v < 65536) (h : Ready d (le16Bytes v ++ rest)) : le16 d = .ok v (d.skip 2) := by
  have hLow : v % 256 < 256 := Nat.mod_lt v (by decide)
  have hHigh : v / 256 < 256 := Nat.div_lt_of_lt_mul hV
  have hNext : Ready (d.skip 1) (UInt8.ofNat (v / 256) :: rest) := h.skip_one
  have hValue : v % 256 ||| (v / 256) <<< 8 = v := by
    rw [Nat.or_comm, ← Nat.shiftLeft_add_eq_or_of_lt hLow, Nat.shiftLeft_eq]
    exact Nat.div_add_mod' v 256
  rw [le16, run_bind_ok (opcode_run hLow h), run_bind_ok (opcode_run hHigh hNext), hValue]
  rfl

theorem countZeros_run {last : UInt8} (hLast : last ≠ 0) {count fuel zeros : Nat}
    (h : Ready d (List.replicate count 0 ++ last :: rest)) (hFuel : count < fuel) (hWord : zeros + count < wordSize) :
    countZeros fuel zeros d = .ok (zeros + count) (d.skip (count + 1)) := by
  induction count generalizing d fuel zeros with
  | zero =>
    obtain ⟨fuel, rfl⟩ := Nat.exists_eq_succ_of_ne_zero (Nat.pos_iff_ne_zero.mp hFuel)
    have hValue : last.toNat ≠ 0 := fun hZero => hLast (UInt8.toNat_inj.mp hZero)
    rw [countZeros, run_bind_ok (byte_run h), if_neg hValue]
    rfl
  | succ count ih =>
    obtain ⟨fuel, rfl⟩ := Nat.exists_eq_succ_of_ne_zero (Nat.ne_of_gt (Nat.zero_lt_of_lt hFuel))
    rw [List.replicate_succ, List.cons_append] at h
    have hNext : Ready (d.skip 1) (List.replicate count 0 ++ last :: rest) := h.skip_one
    have hZero : UInt8.toNat 0 = 0 := rfl
    rw [countZeros, run_bind_ok (byte_run h), if_pos hZero, run_bind_ok (usize_run (by omega) _),
      ih hNext (by omega) (by omega), skip_skip]
    have hTotal : zeros + 1 + count = zeros + (count + 1) := by omega
    have hSkip : 1 + (count + 1) = count + 1 + 1 := by omega
    rw [hTotal, hSkip]

theorem lastByte_run {b : UInt8} {before : Nat} (hIp : d.ip = before + 1) (h : d.src[before]? = some b) :
    lastByte d = .ok b d := by
  rw [lastByte, run_get_bind, if_neg (by omega)]
  refine index_run ?_ d
  rw [hIp]
  exact h

theorem zeroRun_run {base extra : Nat} (hExtra : 1 ≤ extra) (hWord : base + extra < wordSize)
    (h : Ready d (zeroRunBytes extra ++ rest)) :
    zeroRun base d = .ok (base + extra) (d.skip (zeroRunBytes extra).length) := by
  obtain ⟨count, hCount⟩ : ∃ count, count = (extra - 1) / 255 := ⟨_, rfl⟩
  obtain ⟨value, hValue⟩ : ∃ value, value = extra - count * 255 := ⟨_, rfl⟩
  have hSmall : 1 ≤ value ∧ value ≤ 255 := by omega
  have hBytes : zeroRunBytes extra = List.replicate count 0 ++ [UInt8.ofNat value] := by
    rw [zeroRunBytes, hValue, hCount]
  have hByte : (UInt8.ofNat value).toNat = value := UInt8.toNat_ofNat_of_lt' (Nat.lt_succ_of_le hSmall.2)
  have hLast : UInt8.ofNat value ≠ 0 := by
    intro hZero
    rw [hZero] at hByte
    have hNone : UInt8.toNat 0 = 0 := rfl
    omega
  rw [hBytes, List.append_assoc, List.singleton_append] at h
  have hLength := h.length_eq
  rw [List.length_append, List.length_replicate, List.length_cons] at hLength
  have hIndex : d.src[d.ip + count]? = some (UInt8.ofNat value) := by
    rw [← List.getElem?_drop, h.ahead, List.getElem?_append_right (by rw [List.length_replicate]), List.length_replicate,
      Nat.sub_self]
    rfl
  have hSum : (0 + count) * 255 + (base + (UInt8.ofNat value).toNat) = base + extra := by
    rw [hByte]
    omega
  rw [zeroRun, run_get_bind, run_bind_ok (countZeros_run hLast h (by omega) (by omega)),
    run_bind_ok (lastByte_run (d := d.skip (count + 1)) rfl hIndex), run_bind_ok (usize_run (by omega) _), hSum, if_pos hWord,
    hBytes, List.length_append, List.length_replicate]
  rfl

theorem runLength_run {limit length : Nat} (hLength : 1 ≤ length) (hWord : length < wordSize)
    (h : Ready d (lengthBytes limit length ++ rest)) :
    runLength limit (lengthBits limit length) d = .ok length (d.skip (lengthBytes limit length).length) := by
  rw [runLength, lengthBits]
  rw [lengthBytes] at h ⊢
  split
  · rw [if_neg (by omega)]
    rfl
  · rename_i hLong
    rw [if_neg hLong] at h
    rw [if_pos rfl, zeroRun_run (by omega) (by omega) h]
    congr 1
    omega

theorem room_run {n : Nat} (hRoom : d.out.length + n ≤ d.maxLen) (hBound : d.maxLen < wordSize) : room n d = .ok ⟨⟩ d := by
  rw [room, run_get_bind, run_bind_ok (usize_run (by omega) d), if_neg (by omega)]
  rfl

theorem literals_run {bytes : List UInt8} (h : Ready d (bytes ++ rest)) (hRoom : d.out.length + bytes.length ≤ d.maxLen) :
    literals bytes.length d = .ok ⟨⟩ ((d.skip bytes.length).emit bytes) := by
  have hLength := h.length_eq
  have hSource := h.source
  rw [List.length_append] at hLength
  have hTake : (d.src.drop d.ip).take bytes.length = bytes := by
    rw [h.ahead, List.take_left]
  rw [literals, run_get_bind, if_neg (by omega), if_neg (by omega), run_bind_ok (room_run hRoom h.bound), hTake]
  rfl

theorem copyFrom_run {distance start n : Nat} (hPositive : 0 < distance) (hReach : distance ≤ d.out.length)
    (hStart : start = d.out.length - distance) :
    copyFrom start n d = .ok ⟨⟩ { d with out := copyBack distance n d.out } := by
  induction n generalizing d start with
  | zero => rfl
  | succ n ih =>
    have hIndex : start < d.out.length := by omega
    rw [copyFrom, run_get_bind, run_bind_ok (index_run (List.getElem?_eq_getElem hIndex) d), run_set_bind]
    subst hStart
    rw [ih (d := { d with out := d.out ++ [d.out[d.out.length - distance]] }), copyBack, List.getElem?_eq_getElem hIndex]
    · rw [List.length_append]
      omega
    · rw [List.length_append, List.length_singleton]
      omega

theorem backReference_run {distance n : Nat} (hPositive : 0 < distance) (hReach : distance ≤ d.out.length)
    (hRoom : d.out.length + n ≤ d.maxLen) (hBound : d.maxLen < wordSize) :
    backReference distance n d = .ok ⟨⟩ (d.emit (matched distance n d.out)) := by
  rw [backReference, run_get_bind, if_neg (by omega), run_bind_ok (room_run hRoom hBound), copyFrom_run hPositive hReach rfl,
    copyBack_eq hPositive hReach]
  rfl

theorem copy_run {distance length : Nat} {trailing : List UInt8} (hPositive : 0 < distance) (hReach : distance ≤ d.out.length)
    (hRoom : d.out.length + (length + trailing.length) ≤ d.maxLen) (h : Ready d (trailing ++ rest)) :
    copy distance length trailing.length d = .ok (some trailing.length)
      ((d.skip trailing.length).emit (matched distance length d.out ++ trailing)) := by
  have hMatched := length_matched hPositive hReach length
  rw [copy, run_bind_ok (backReference_run hPositive hReach (by omega) h.bound),
    run_bind_ok (literals_run (h.emit _) (by rw [emit_out, List.length_append, emit_maxLen]; omega))]
  rw [emit, skip, emit, emit, skip, List.append_assoc]
  rfl

/-! ## Instructions -/

theorem match_run {distance length : Nat} {trailing : List UInt8} (h : Ready d (trailing ++ rest)) (hPositive : 0 < distance)
    (hReach : distance ≤ d.out.length) (hRoom : d.out.length + (length + trailing.length) ≤ d.maxLen) :
    (do let distance ← usize distance; copy distance length trailing.length) d = .ok (some trailing.length)
      ((d.skip trailing.length).emit (matched distance length d.out ++ trailing)) := by
  have hBound := h.bound
  rw [run_bind_ok (usize_run (by omega) d), copy_run hPositive hReach hRoom h]

/-- What is skipped of a match without a length extension. -/
theorem skipped_short (a b : UInt8) (trailing : List UInt8) : 1 + (1 + trailing.length) = ([a, b] ++ trailing).length := by
  rw [List.length_append, List.length_cons, List.length_singleton]
  omega

/-- What is skipped of a match whose length may be extended. -/
theorem skipped_long (b : UInt8) (extension : List UInt8) (v : Nat) (trailing : List UInt8) :
    1 + (extension.length + (2 + trailing.length)) = (b :: extension ++ le16Bytes v ++ trailing).length := by
  rw [List.length_append, List.length_append, List.length_cons, le16Bytes, List.length_cons, List.length_singleton]
  omega

theorem and_three (n : Nat) : n &&& 3 = n % 4 := Nat.and_two_pow_sub_one_eq_mod n 2

theorem and_seven (n : Nat) : n &&& 7 = n % 8 := Nat.and_two_pow_sub_one_eq_mod n 3

theorem and_thirtyOne (n : Nat) : n &&& 31 = n % 32 := Nat.and_two_pow_sub_one_eq_mod n 5

theorem and_eight {n : Nat} (h : n < 32) : n &&& 8 = n / 8 % 2 * 8 := by
  have hAll : ∀ n : Fin 32, n.val &&& 8 = n.val / 8 % 2 * 8 := by
    decide
  exact hAll ⟨n, h⟩

theorem run_run {bytes : List UInt8} (hLong : 4 ≤ bytes.length) (hRoom : d.out.length + bytes.length ≤ d.maxLen)
    (h : Ready d ((Instruction.run bytes).head 0 ++ bytes ++ rest)) :
    instruction 0 d = .ok (some 4) ((d.skip ((Instruction.run bytes).head 0 ++ bytes).length).emit bytes) := by
  have hBound := h.bound
  have hBits : lengthBits 15 (bytes.length - 3) < 16 := by
    rw [lengthBits]
    split
    · omega
    · omega
  rw [Instruction.head, List.cons_append, List.cons_append, List.append_assoc] at h
  have hLiterals := h.skip_one.skip
  have hLength : bytes.length - 3 + 3 = bytes.length := by omega
  have hCount : 1 + ((lengthBytes 15 (bytes.length - 3)).length + bytes.length) =
      ((Instruction.run bytes).head 0 ++ bytes).length := by
    rw [Instruction.head, List.length_append, List.length_cons]
    omega
  rw [instruction, run_bind_ok (opcode_run (by omega) h), if_pos hBits, if_pos rfl,
    run_bind_ok (runLength_run (by omega) (by omega) h.skip_one), run_bind_ok (usize_run (by omega) _), hLength,
    run_bind_ok (literals_run hLiterals hRoom), skip_skip, skip_skip, hCount]
  rfl

section
variable {state distance length : Nat} {trailing : List UInt8}

theorem m1_run (hFits : Form.m1.Fits state distance length) (hReach : distance ≤ d.out.length) (hTrailing : trailing.length ≤ 3)
    (hRoom : d.out.length + (length + trailing.length) ≤ d.maxLen)
    (h : Ready d ((Instruction.copy .m1 distance length trailing).head state ++ trailing ++ rest)) :
    instruction state d = .ok (some trailing.length)
      ((d.skip ((Instruction.copy .m1 distance length trailing).head state ++ trailing).length).emit
        (matched distance length d.out ++ trailing)) := by
  obtain ⟨offset, hOffset⟩ : ∃ offset, offset = distance - (if state = 4 then 2049 else 1) := ⟨_, rfl⟩
  have hRange : offset < 1024 := by
    obtain hNear | hFar := hFits
    · rw [if_neg (by omega)] at hOffset
      omega
    · rw [if_pos hFar.1] at hOffset
      omega
  obtain ⟨t, hT⟩ : ∃ t, t = offset % 4 * 4 + trailing.length := ⟨_, rfl⟩
  have hHead : (Instruction.copy .m1 distance length trailing).head state = [UInt8.ofNat t, UInt8.ofNat (offset / 4)] := by
    rw [Instruction.head, hT, hOffset]
  rw [hHead] at h ⊢
  have hOpcode : Ready d (UInt8.ofNat t :: UInt8.ofNat (offset / 4) :: (trailing ++ rest)) := h
  have hNext : t &&& 3 = trailing.length := by
    rw [and_three]
    omega
  have hSum : 1 + (t >>> 2) + ((offset / 4) <<< 2) = 1 + offset := by
    rw [Nat.shiftRight_eq_div_pow, Nat.shiftLeft_eq]
    omega
  rw [instruction, run_bind_ok (opcode_run (by omega) hOpcode), if_pos (by omega)]
  obtain ⟨hLow, hHigh, rfl, hNear⟩ | ⟨rfl, rfl, hFar⟩ := hFits
  · rw [if_neg (by omega)] at hOffset
    have hDistance : 1 + (t >>> 2) + ((offset / 4) <<< 2) = distance := by omega
    rw [if_neg (by omega), run_bind_ok (opcode_run (by omega) hOpcode.skip_one), if_pos (by omega), hDistance, hNext,
      match_run hOpcode.skip_one.skip_one (by omega) hReach hRoom, skip_skip, skip_skip, skipped_short]
    rfl
  · rw [if_pos rfl] at hOffset
    have hDistance : 1 + m2MaxOffset + (t >>> 2) + ((offset / 4) <<< 2) = distance := by
      rw [m2MaxOffset]
      omega
    rw [if_neg (by omega), run_bind_ok (opcode_run (by omega) hOpcode.skip_one), if_neg (by omega), hDistance, hNext,
      match_run hOpcode.skip_one.skip_one (by omega) hReach hRoom, skip_skip, skip_skip, skipped_short]
    rfl

theorem m2_run (hFits : Form.m2.Fits state distance length) (hReach : distance ≤ d.out.length) (hTrailing : trailing.length ≤ 3)
    (hRoom : d.out.length + (length + trailing.length) ≤ d.maxLen)
    (h : Ready d ((Instruction.copy .m2 distance length trailing).head state ++ trailing ++ rest)) :
    instruction state d = .ok (some trailing.length)
      ((d.skip ((Instruction.copy .m2 distance length trailing).head state ++ trailing).length).emit
        (matched distance length d.out ++ trailing)) := by
  obtain ⟨hShort, hLong, hNear, hFar⟩ := hFits
  obtain ⟨offset, hOffset⟩ : ∃ offset, offset = distance - 1 := ⟨_, rfl⟩
  obtain ⟨t, hT⟩ : ∃ t, t = (length - 1) * 32 + offset % 8 * 4 + trailing.length := ⟨_, rfl⟩
  have hHead : (Instruction.copy .m2 distance length trailing).head state = [UInt8.ofNat t, UInt8.ofNat (offset / 8)] := by
    rw [Instruction.head, hT, hOffset]
  rw [hHead] at h ⊢
  have hOpcode : Ready d (UInt8.ofNat t :: UInt8.ofNat (offset / 8) :: (trailing ++ rest)) := h
  have hNext : t &&& 3 = trailing.length := by
    rw [and_three]
    omega
  have hDistance : 1 + ((t >>> 2) &&& 7) + ((offset / 8) <<< 3) = distance := by
    rw [and_seven, Nat.shiftRight_eq_div_pow, Nat.shiftLeft_eq]
    omega
  have hLength : (t >>> 5) + 1 = length := by
    rw [Nat.shiftRight_eq_div_pow]
    omega
  rw [instruction, run_bind_ok (opcode_run (by omega) hOpcode), if_neg (by omega), if_pos (by omega),
    run_bind_ok (opcode_run (by omega) hOpcode.skip_one), hDistance, hNext, hLength,
    match_run hOpcode.skip_one.skip_one (by omega) hReach hRoom, skip_skip, skip_skip, skipped_short]
  rfl

theorem m3_run (hFits : Form.m3.Fits state distance length) (hReach : distance ≤ d.out.length) (hTrailing : trailing.length ≤ 3)
    (hRoom : d.out.length + (length + trailing.length) ≤ d.maxLen)
    (h : Ready d ((Instruction.copy .m3 distance length trailing).head state ++ trailing ++ rest)) :
    instruction state d = .ok (some trailing.length)
      ((d.skip ((Instruction.copy .m3 distance length trailing).head state ++ trailing).length).emit
        (matched distance length d.out ++ trailing)) := by
  obtain ⟨hLong, hNear, hFar⟩ := hFits
  have hBound := h.bound
  obtain ⟨v, hV⟩ : ∃ v, v = (distance - 1) * 4 + trailing.length := ⟨_, rfl⟩
  have hBits := lengthBits_le 31 (length - 2)
  have hHead : (Instruction.copy .m3 distance length trailing).head state =
      UInt8.ofNat (32 + lengthBits 31 (length - 2)) :: lengthBytes 31 (length - 2) ++ le16Bytes v := by
    rw [Instruction.head, hV]
  rw [hHead] at h ⊢
  rw [List.append_assoc, List.append_assoc, List.cons_append] at h
  have hField : (32 + lengthBits 31 (length - 2)) &&& 31 = lengthBits 31 (length - 2) := by
    rw [and_thirtyOne]
    omega
  have hLength : length - 2 + 2 = length := by omega
  have hDistance : 1 + (v >>> 2) = distance := by
    rw [Nat.shiftRight_eq_div_pow]
    omega
  have hNext : v &&& 3 = trailing.length := by
    rw [and_three]
    omega
  have hWord := h.skip_one.skip
  rw [instruction, run_bind_ok (opcode_run (by omega) h), if_neg (by omega), if_neg (by omega), if_pos (by omega), hField,
    run_bind_ok (runLength_run (by omega) (by omega) h.skip_one), hLength, run_bind_ok (usize_run (by omega) _),
    run_bind_ok (le16_run (by omega) hWord), hDistance, hNext,
    match_run (d := ((d.skip 1).skip (lengthBytes 31 (length - 2)).length).skip 2) hWord.skip (by omega) hReach hRoom,
    skip_skip, skip_skip, skip_skip, skipped_long]
  rfl

theorem m4_run (hFits : Form.m4.Fits state distance length) (hReach : distance ≤ d.out.length) (hTrailing : trailing.length ≤ 3)
    (hRoom : d.out.length + (length + trailing.length) ≤ d.maxLen)
    (h : Ready d ((Instruction.copy .m4 distance length trailing).head state ++ trailing ++ rest)) :
    instruction state d = .ok (some trailing.length)
      ((d.skip ((Instruction.copy .m4 distance length trailing).head state ++ trailing).length).emit
        (matched distance length d.out ++ trailing)) := by
  obtain ⟨hLong, hNear, hFar⟩ := hFits
  have hBound := h.bound
  obtain ⟨far, hValue⟩ : ∃ far, far = distance - 16384 := ⟨_, rfl⟩
  obtain ⟨v, hV⟩ : ∃ v, v = far % 16384 * 4 + trailing.length := ⟨_, rfl⟩
  obtain ⟨t, hT⟩ : ∃ t, t = 16 + far / 16384 * 8 + lengthBits 7 (length - 2) := ⟨_, rfl⟩
  have hBits := lengthBits_le 7 (length - 2)
  have hHead : (Instruction.copy .m4 distance length trailing).head state =
      UInt8.ofNat t :: lengthBytes 7 (length - 2) ++ le16Bytes v := by
    rw [Instruction.head, hV, hT, hValue]
  rw [hHead] at h ⊢
  rw [List.append_assoc, List.append_assoc, List.cons_append] at h
  have hField : t &&& 7 = lengthBits 7 (length - 2) := by
    rw [and_seven]
    omega
  have hLength : length - 2 + 2 = length := by omega
  have hSum : ((t &&& 8) <<< 11) + (v >>> 2) = far := by
    rw [and_eight (by omega), Nat.shiftRight_eq_div_pow, Nat.shiftLeft_eq]
    omega
  have hDistance : far + 0x4000 = distance := by omega
  have hNext : v &&& 3 = trailing.length := by
    rw [and_three]
    omega
  have hWord := h.skip_one.skip
  rw [instruction, run_bind_ok (opcode_run (by omega) h), if_neg (by omega), if_neg (by omega), if_neg (by omega), hField,
    run_bind_ok (runLength_run (by omega) (by omega) h.skip_one), hLength, run_bind_ok (usize_run (by omega) _),
    run_bind_ok (le16_run (by omega) hWord), hSum, run_bind_ok (usize_run (by omega) _), if_neg (by omega), hDistance, hNext,
    match_run (d := ((d.skip 1).skip (lengthBytes 7 (length - 2)).length).skip 2) hWord.skip (by omega) hReach hRoom,
    skip_skip, skip_skip, skip_skip, skipped_long]
  rfl

end

/-- Every instruction is read as it was written. -/
theorem instruction_run {state : Nat} {step : Instruction} (hFits : step.Fits state d.out.length)
    (hRoom : d.out.length + step.size ≤ d.maxLen) (h : Ready d (step.head state ++ step.literals ++ rest)) :
    instruction state d = .ok (some step.nextState)
      ((d.skip (step.head state ++ step.literals).length).emit (step.output d.out)) := by
  cases step with
  | run bytes =>
    obtain ⟨rfl, hLong⟩ := hFits
    exact run_run hLong hRoom h
  | copy form distance length trailing =>
    obtain ⟨hForm, hReach, hTrailing⟩ := hFits
    cases form with
    | m1 => exact m1_run hForm hReach hTrailing hRoom h
    | m2 => exact m2_run hForm hReach hTrailing hRoom h
    | m3 => exact m3_run hForm hReach hTrailing hRoom h
    | m4 => exact m4_run hForm hReach hTrailing hRoom h

theorem endMarker_run (state : Nat) (h : Ready d endMarker) : instruction state d = .ok none (d.skip 3) := by
  have hOpcode : Ready d (UInt8.ofNat 17 :: (le16Bytes 0 ++ [])) := h
  have hLength : runLength 7 (17 &&& 7) (d.skip 1) = .ok 1 (d.skip 1) := rfl
  have hFar : ((17 &&& 8) <<< 11) + (0 >>> 2) = 0 := rfl
  rw [instruction, run_bind_ok (opcode_run (by decide) hOpcode), if_neg (by decide), if_neg (by decide), if_neg (by decide),
    run_bind_ok hLength, run_bind_ok (usize_run (by decide) _), run_bind_ok (le16_run (by decide) hOpcode.skip_one), hFar,
    run_bind_ok (usize_run (by decide) _), if_pos rfl]
  rfl

end Decoder

/-! ## Sequences -/

theorem length_output {step : Instruction} {state : Nat} {out : List UInt8} (hFits : step.Fits state out.length) :
    (step.output out).length = step.size := by
  cases step with
  | run bytes => rfl
  | copy form distance length trailing =>
    obtain ⟨hForm, hReach, -⟩ := hFits
    rw [Instruction.output, List.length_append, length_matched hForm.pos hReach, Instruction.size]

theorem length_le_denote (out : List UInt8) (steps : List Instruction) : out.length ≤ (denote out steps).length := by
  induction steps generalizing out with
  | nil => exact Nat.le_refl _
  | cons step steps ih => exact Nat.le_trans (by rw [List.length_append]; omega) (ih (out ++ step.output out))

theorem length_le_encode (state : Nat) (steps : List Instruction) : steps.length < (encode state steps).length := by
  induction steps generalizing state with
  | nil => exact Nat.succ_pos 2
  | cons step steps ih =>
    have hHead : 0 < (step.head state).length := by
      cases step with
      | run bytes => exact Nat.succ_pos _
      | copy form distance length trailing =>
        cases form with
        | m1 | m2 | m3 | m4 => exact Nat.succ_pos _
    have hRest := ih step.nextState
    rw [encode, List.length_cons, List.length_append, List.length_append]
    omega

theorem Decoder.loop_run {state fuel : Nat} {steps : List Instruction} (hSteps : WellFormed state d.out.length steps)
    (hRoom : (denote d.out steps).length ≤ d.maxLen) (h : Ready d (encode state steps)) (hFuel : steps.length < fuel) :
    ∃ last, Decoder.loop fuel state d = .ok ⟨⟩ last ∧ last.out = denote d.out steps := by
  induction steps generalizing d state fuel with
  | nil =>
    obtain ⟨fuel, rfl⟩ := Nat.exists_eq_succ_of_ne_zero (Nat.ne_of_gt hFuel)
    refine ⟨d.skip 3, ?_, rfl⟩
    rw [Decoder.loop, run_bind_ok (Decoder.endMarker_run state h)]
    rfl
  | cons step steps ih =>
    obtain ⟨fuel, rfl⟩ := Nat.exists_eq_succ_of_ne_zero (Nat.ne_of_gt (Nat.zero_lt_of_lt hFuel))
    obtain ⟨hFits, hRest⟩ := hSteps
    have hOutput := length_output hFits
    have hLess := length_le_denote (d.out ++ step.output d.out) steps
    rw [List.length_append, hOutput] at hLess
    have hNow : d.out.length + step.size ≤ d.maxLen := Nat.le_trans hLess hRoom
    rw [Decoder.loop, run_bind_ok (Decoder.instruction_run hFits hNow h)]
    refine ih (d := (d.skip (step.head state ++ step.literals).length).emit (step.output d.out)) ?_ hRoom (h.skip.emit _)
      (Nat.lt_of_succ_lt_succ hFuel)
    rw [Decoder.emit_out, Decoder.skip_out, List.length_append, hOutput]
    exact hRest

/-- The first byte of instructions that nothing stands before is no count of literals. -/
theorem head_encode {steps : List Instruction} (hSteps : WellFormed 0 0 steps) :
    ∃ first rest, encode 0 steps = first :: rest ∧ first.toNat ≤ 17 := by
  cases steps with
  | nil => exact ⟨0x11, [0x00, 0x00], rfl, by decide⟩
  | cons step steps =>
    cases step with
    | run bytes =>
      have hBits := lengthBits_le 15 (bytes.length - 3)
      refine ⟨_, _, rfl, ?_⟩
      rw [UInt8.toNat_ofNat']
      omega
    | copy form distance length trailing =>
      obtain ⟨hForm, hReach, -⟩ := hSteps.1
      exact absurd hForm.pos (Nat.not_lt.mpr hReach)

namespace Decoder

theorem opening_run_nil {first : UInt8} {maxLen : Nat} (hFirst : first.toNat ≤ 17) :
    opening (start (first :: rest) maxLen) = .ok 0 (start (first :: rest) maxLen) := by
  rw [opening, run_get_bind, start]
  dsimp only
  rw [if_neg (by omega)]
  rfl

theorem opening_run {initial : List UInt8} {maxLen : Nat} (hNonempty : initial ≠ []) (hLength : initial.length ≤ 238)
    (hRoom : initial.length ≤ maxLen) (h : Ready (start (UInt8.ofNat (17 + initial.length) :: (initial ++ rest)) maxLen)
      (UInt8.ofNat (17 + initial.length) :: (initial ++ rest))) :
    opening (start (UInt8.ofNat (17 + initial.length) :: (initial ++ rest)) maxLen) =
      .ok (if initial.length < 4 then initial.length else 4)
        (((start (UInt8.ofNat (17 + initial.length) :: (initial ++ rest)) maxLen).skip 1).skip initial.length |>.emit
          initial) := by
  have hPositive := List.length_pos_of_ne_nil hNonempty
  have hValue : (UInt8.ofNat (17 + initial.length)).toNat = 17 + initial.length :=
    UInt8.toNat_ofNat_of_lt' (Nat.lt_of_le_of_lt (Nat.add_le_add_left hLength 17) (by decide))
  have hCount : 17 + initial.length - 17 = initial.length := Nat.add_sub_cancel_left 17 _
  have hOut : ((start (UInt8.ofNat (17 + initial.length) :: (initial ++ rest)) maxLen).skip 1).out.length + initial.length ≤
      maxLen := by
    rw [skip_out, start, List.length_nil, Nat.zero_add]
    exact hRoom
  rw [opening, run_get_bind, start]
  dsimp only
  rw [hValue, if_pos (by omega), hCount, run_set_bind]
  exact run_bind_ok (literals_run h.skip_one hOut) _

end Decoder

theorem run_sequence {sequence : Sequence} (hWell : sequence.WellFormed) {maxLen : Nat} (hMax : maxLen < 2 ^ 64)
    (hRoom : sequence.denote.length ≤ maxLen) (hSize : sequence.encode.length < 2 ^ 64) :
    ∃ last, Decoder.run (.start sequence.encode maxLen) = .ok ⟨⟩ last ∧ last.out = sequence.denote := by
  obtain ⟨initial, steps⟩ := sequence
  obtain ⟨hLength, hSteps⟩ := hWell
  have hStart (src : List UInt8) (hSrc : src.length < 2 ^ 64) : Ready (.start src maxLen) src :=
    ⟨rfl, Nat.zero_le _, hSrc, hMax⟩
  obtain rfl | hNonempty := eq_or_ne initial []
  · obtain ⟨first, rest, hBytes, hFirst⟩ := head_encode hSteps
    have hEncode : Sequence.encode ⟨[], steps⟩ = first :: rest := hBytes
    rw [hEncode] at hSize ⊢
    have hReady := hStart (first :: rest) hSize
    rw [Decoder.run, run_bind_ok (Decoder.opening_run_nil hFirst), run_get_bind]
    have hFewer := length_le_encode 0 steps
    rw [hBytes] at hFewer
    exact Decoder.loop_run (d := .start (first :: rest) maxLen) hSteps hRoom (hBytes ▸ hReady) (Nat.lt_succ_of_lt hFewer)
  · have hEncode : Sequence.encode ⟨initial, steps⟩ =
        UInt8.ofNat (17 + initial.length) :: (initial ++ encode (Sequence.state ⟨initial, steps⟩) steps) := by
      rw [Sequence.encode, if_neg hNonempty, List.cons_append]
    rw [hEncode] at hSize ⊢
    have hReady := hStart _ hSize
    have hInitial : initial.length ≤ maxLen := Nat.le_trans (length_le_denote initial steps) hRoom
    rw [Decoder.run, run_bind_ok (Decoder.opening_run hNonempty hLength hInitial hReady), run_get_bind]
    refine Decoder.loop_run hSteps hRoom (hReady.skip_one.skip.emit initial) ?_
    have hFewer := length_le_encode (Sequence.state ⟨initial, steps⟩) steps
    have hWhole := hReady.length_eq
    rw [List.length_cons, List.length_append] at hWhole
    change steps.length < (UInt8.ofNat (17 + initial.length) :: (initial ++ _)).length + 1
    rw [List.length_cons, List.length_append]
    omega

theorem decompress_sequence {sequence : Sequence} (hWell : sequence.WellFormed) {maxLen : Nat} (hMax : maxLen < 2 ^ 64)
    (hRoom : sequence.denote.length ≤ maxLen) (hSize : sequence.encode.length < 2 ^ 64) :
    decompress sequence.encode maxLen = .ok sequence.denote := by
  obtain ⟨last, hRun, hOut⟩ := run_sequence hWell hMax hRoom hSize
  rw [decompress, hRun, ← hOut]

/-- A long run of literals and nothing else. -/
def literalSequence (data : List UInt8) : Sequence := ⟨[], [.run data]⟩

theorem encode_literalSequence {data : List UInt8} (hLong : 19 ≤ data.length) :
    (literalSequence data).encode = lzoLiteral data := by
  have hBits : ¬ data.length - 3 ≤ 15 := by omega
  have hExtra : data.length - 3 - 15 = data.length - 18 := by omega
  have hZero : UInt8.ofNat 0 = 0 := rfl
  simp only [literalSequence, Sequence.encode, if_pos, List.nil_append, encode, Instruction.head, Instruction.literals,
    lengthBits, lengthBytes, if_neg hBits, hExtra, zeroRunBytes, lzoLiteral, endMarker, hZero]
  simp

/-- Decompression gives what the instructions denote, the literal-only encoding included. -/
theorem decompress_encode {sequence : Sequence} (hWell : sequence.WellFormed) {maxLen : Nat} (hMax : maxLen < 2 ^ 64)
    (hRoom : sequence.denote.length ≤ maxLen) (hSize : sequence.encode.length < 2 ^ 64) :
    decompress sequence.encode maxLen = .ok sequence.denote ∧
      ∀ data : List UInt8, 19 ≤ data.length → data.length ≤ maxLen → (lzoLiteral data).length < 2 ^ 64 →
        decompress (lzoLiteral data) maxLen = .ok data := by
  refine ⟨decompress_sequence hWell hMax hRoom hSize, fun data hLong hFits hBytes => ?_⟩
  rw [← encode_literalSequence hLong] at hBytes ⊢
  have hLiteral : (literalSequence data).WellFormed := ⟨Nat.zero_le _, ⟨rfl, by omega⟩, trivial⟩
  exact decompress_sequence hLiteral hMax hFits hBytes

/-- An overlapping match with a trailing literal, a short match in the state behind it, and a run of literals. -/
def periodSequence : Sequence where
  initial := [1, 2]
  instructions := [.copy .m2 2 5 [3], .copy .m1 1 2 [], .run [4, 5, 6, 7]]

theorem periodSequence_decompressed :
    decompress [0x13, 1, 2, 0x85, 0, 3, 0, 0, 1, 4, 5, 6, 7, 0x11, 0, 0] 64 =
      .ok [1, 2, 1, 2, 1, 2, 1, 3, 3, 3, 4, 5, 6, 7] := by
  have hM2 : (Instruction.copy .m2 2 5 [3]).Fits 2 2 := ⟨⟨by decide, by decide, by decide, by decide⟩, by decide, by decide⟩
  have hM1 : (Instruction.copy .m1 1 2 []).Fits 1 8 :=
    ⟨.inl ⟨by decide, by decide, rfl, by decide, by decide⟩, by decide, by decide⟩
  have hRun : (Instruction.run [4, 5, 6, 7]).Fits 0 10 := ⟨rfl, by decide⟩
  have hWell : periodSequence.WellFormed := ⟨by decide, hM2, hM1, hRun, trivial⟩
  exact (decompress_encode hWell (by decide) (by decide) (by decide)).1

end Pigeon.Transform.Lzo1x
