import Pigeon.Transform.Lzo1x

/-! # Safe decompression

Each byte that is read pays for 255 bytes of output. No instruction writes more than it has paid for, so the output
stays within a fixed multiple of the input and no sum leaves a machine word.
-/
namespace Pigeon.Transform.Lzo1x

open Library

set_option autoImplicit false

/-- The decoder is within its bounds, at or behind `lower`, with `credit` paid for and not yet written. -/
structure Within (src : List UInt8) (maxLen lower credit : Nat) (d : Decoder) : Prop where
  source : d.src = src
  bound : d.maxLen = maxLen
  lower : lower ≤ d.ip
  inside : d.ip ≤ src.length
  fits : d.out.length ≤ maxLen
  paid : d.out.length + credit ≤ 255 * d.ip

/-- An error of the decoder's own, the output still within its bound. -/
def Reported (maxLen : Nat) (e : Halt) (d : Decoder) : Prop := (∃ message, e = .error message) ∧ d.out.length ≤ maxLen

variable {src : List UInt8} {maxLen lower credit : Nat}

theorem Within.relax {d : Decoder} {less : Nat} (h : Within src maxLen lower credit d) (hLess : less ≤ credit) :
    Within src maxLen lower less d := { h with paid := Nat.le_trans (Nat.add_le_add_left hLess _) h.paid }

theorem shiftRight_lt {n bits bound : Nat} (h : n < bound * 2 ^ bits) : n >>> bits < bound := by
  rw [Nat.shiftRight_eq_div_pow]
  exact Nat.div_lt_of_lt_mul (by rwa [Nat.mul_comm])

theorem shiftLeft_lt {n bits bound : Nat} (h : n < bound) : n <<< bits < bound * 2 ^ bits := by
  rw [Nat.shiftLeft_eq]
  exact Nat.mul_lt_mul_of_pos_right h (Nat.two_pow_pos bits)

/-- A run that has been paid for fits a word. -/
theorem Within.word {d : Decoder} {n more : Nat} (hSrc : src.length < 2 ^ 50) (h : Within src maxLen lower credit d)
    (hPaid : n ≤ credit) (hMore : more < 256) : n + more < wordSize := by
  have hTotal := h.paid
  have hInside := h.inside
  rw [wordSize]
  omega

theorem usize_ensures {pre : Decoder → Prop} {value : Nat} (h : ∀ d, pre d → value < wordSize) {fail : Halt → Decoder → Prop} :
    Ensures pre (usize value) (fun a d => a = value ∧ pre d) fail := by
  intro d hPre
  rw [usize, if_pos (h d hPre)]
  exact ⟨rfl, hPre⟩

theorem index_ensures {pre : Decoder → Prop} {bytes : List UInt8} {position : Nat} (h : position < bytes.length)
    {fail : Halt → Decoder → Prop} : Ensures pre (index bytes position) (fun _ => pre) fail := by
  rw [index, List.getElem?_eq_getElem h]
  exact .pure fun d hPre => hPre

namespace Decoder

theorem byte_ensures (hSrc : src.length < 2 ^ 50) : Ensures (Within src maxLen lower credit) byte
    (fun b d => b < 256 ∧ Within src maxLen (lower + 1) (credit + 255) d) (Reported maxLen) := by
  refine .get_bind fun d h => ?_
  cases hByte : d.src[d.ip]? with
  | none => exact .throw fun s hSame => ⟨⟨_, rfl⟩, hSame ▸ h.fits⟩
  | some value =>
    obtain ⟨hInside, -⟩ := List.getElem?_eq_some_iff.mp hByte
    rw [h.source] at hInside
    have hNext : d.ip + 1 < wordSize := by
      rw [wordSize]
      omega
    refine .bind (usize_ensures fun _ _ => hNext) fun ip => .assume fun hIp => ?_
    subst hIp
    have hSet : Ensures (· = d) (set { d with ip := d.ip + 1 }) (fun _ => Within src maxLen (lower + 1) (credit + 255))
        (Reported maxLen) := by
      have hPaid := h.paid
      apply Ensures.set
      exact ⟨h.source, h.bound, Nat.succ_le_succ h.lower, hInside, h.fits, by dsimp only; omega⟩
    exact .bind hSet fun _ => .pure fun s hWithin => ⟨value.toNat_lt, hWithin⟩

theorem le16_ensures (hSrc : src.length < 2 ^ 50) : Ensures (Within src maxLen lower credit) le16
    (fun v d => v < 2 ^ 16 ∧ Within src maxLen lower (credit + 510) d) (Reported maxLen) := by
  refine .bind (byte_ensures hSrc) fun low => .assume fun hLow => ?_
  refine .bind (byte_ensures hSrc) fun high => .assume fun hHigh => ?_
  refine .pure fun d h => ⟨?_, ⟨h.source, h.bound, by have := h.lower; omega, h.inside, h.fits, h.paid⟩⟩
  have hShifted : high <<< 8 < 2 ^ 16 := by
    rw [Nat.shiftLeft_eq]
    omega
  exact Nat.or_lt_two_pow (Nat.lt_trans hLow (by decide)) hShifted

theorem countZeros_ensures (hSrc : src.length < 2 ^ 50) {fuel zeros : Nat} (hFuel : src.length < lower + fuel) :
    Ensures (Within src maxLen lower (credit + 255 * zeros)) (countZeros fuel zeros)
      (fun total => Within src maxLen (lower + 1) (credit + 255 * total + 255)) (Reported maxLen) := by
  induction fuel generalizing lower zeros with
  | zero =>
    intro d h
    have hLower := h.lower
    have hInside := h.inside
    omega
  | succ fuel ih =>
    refine .bind (byte_ensures hSrc) fun value => .assume fun _ => .ite (fun _ => ?_) fun _ => ?_
    · have hZeros (d : Decoder) (h : Within src maxLen (lower + 1) (credit + 255 * zeros + 255) d) : zeros + 1 < wordSize := by
        have hPaid := h.paid
        have hInside := h.inside
        rw [wordSize]
        omega
      have hMore : Ensures (Within src maxLen (lower + 1) (credit + 255 * (zeros + 1))) (countZeros fuel (zeros + 1))
          (fun total => Within src maxLen (lower + 1 + 1) (credit + 255 * total + 255)) (Reported maxLen) := ih (by omega)
      refine .bind (usize_ensures hZeros) fun next => .assume fun hNext => ?_
      subst hNext
      refine (hMore.strengthen fun s hS => hS.relax (by omega)).weaken fun total s hS => ?_
      exact { hS with lower := Nat.le_of_succ_le hS.lower }
    · exact .pure fun d h => h.relax (by omega)

theorem lastByte_ensures : Ensures (Within src maxLen (lower + 1) credit) lastByte
    (fun _ => Within src maxLen (lower + 1) credit) (Reported maxLen) := by
  refine .get_bind fun d h => ?_
  have hInside := h.inside
  have hLower := h.lower
  refine .ite (fun hZero => absurd hZero (by omega)) fun _ => (index_ensures ?_).weaken ?_
  · rw [h.source]
    omega
  · rintro _ _ rfl
    exact h

theorem zeroRun_ensures (hSrc : src.length < 2 ^ 50) {base : Nat} (hBase : base < 256) :
    Ensures (Within src maxLen lower credit) (zeroRun base)
      (fun n d => base ≤ n ∧ Within src maxLen (lower + 1) (credit + (n - base)) d) (Reported maxLen) := by
  refine .get_bind fun start hStart => ?_
  have hCount : Ensures (Within src maxLen lower (credit + 255 * 0)) (countZeros (start.src.length + 1) 0)
      (fun total => Within src maxLen (lower + 1) (credit + 255 * total + 255)) (Reported maxLen) := by
    apply countZeros_ensures hSrc
    rw [hStart.source]
    omega
  refine .bind (hCount.strengthen ?_) fun zeros => .bind lastByte_ensures fun last => ?_
  · rintro _ rfl
    exact hStart
  · have hLast := last.toNat_lt
    have hSum : base + last.toNat < wordSize := by
      rw [wordSize]
      omega
    refine .bind (usize_ensures fun _ _ => hSum) fun extra => .assume fun hExtra => .ite (fun _ => .pure ?_) fun _ => .throw ?_
    · exact fun d h => ⟨by omega, h.relax (by omega)⟩
    · exact fun d h => ⟨⟨_, rfl⟩, h.fits⟩

/-- The length of an instruction has been paid for, but for one byte. -/
theorem runLength_ensures (hSrc : src.length < 2 ^ 50) {base bits : Nat} (hBase : base < 256) (hBits : bits < 256) :
    Ensures (Within src maxLen lower credit) (runLength base bits)
      (fun n d => Within src maxLen lower (credit + n - 255) d) (Reported maxLen) := by
  refine .ite (fun _ => (zeroRun_ensures hSrc hBase).weaken fun n d h => ?_) fun _ => .pure fun d h => h.relax (by omega)
  exact { h.2.relax (by omega) with lower := Nat.le_of_succ_le h.2.lower }

theorem room_ensures {n : Nat} {pre : Decoder → Prop} (hPre : ∀ d, pre d → d.maxLen = maxLen ∧ d.out.length ≤ maxLen ∧
    d.out.length + n < wordSize) :
    Ensures pre (room n) (fun _ d => pre d ∧ d.out.length + n ≤ maxLen) (Reported maxLen) := by
  refine .get_bind fun d h => ?_
  obtain ⟨hBound, hFits, hSum⟩ := hPre d h
  refine .bind (usize_ensures fun _ _ => hSum) fun size => .assume fun hSize => .ite (fun _ => .throw ?_) fun hRoom => .pure ?_
  · rintro _ rfl
    exact ⟨⟨_, rfl⟩, hFits⟩
  · rintro _ rfl
    exact ⟨h, by omega⟩

theorem literals_ensures (hSrc : src.length < 2 ^ 50) (n : Nat) : Ensures (Within src maxLen lower credit) (literals n)
    (fun _ => Within src maxLen lower credit) (Reported maxLen) := by
  refine .get_bind fun d h => .ite (fun _ => .throw ?_) fun _ => .ite (fun _ => .throw ?_) fun hStop => ?_
  · rintro _ rfl
    exact ⟨⟨_, rfl⟩, h.fits⟩
  · rintro _ rfl
    exact ⟨⟨_, rfl⟩, h.fits⟩
  · have hPaid := h.paid
    have hInside := h.inside
    rw [h.source] at hStop
    have hRoom : Ensures (· = d) (room n) (fun _ s => s = d ∧ s.out.length + n ≤ maxLen) (Reported maxLen) := by
      apply room_ensures
      rintro _ rfl
      exact ⟨h.bound, h.fits, by rw [wordSize]; omega⟩
    refine .bind hRoom fun _ => ?_
    intro s hS
    obtain ⟨rfl, hFits⟩ := hS
    have hTaken : ((s.src.drop s.ip).take n).length = n := by
      rw [List.length_take, List.length_drop, h.source]
      omega
    have hLength : (s.out ++ (s.src.drop s.ip).take n).length = s.out.length + n := by
      rw [List.length_append, hTaken]
    have hLower := h.lower
    exact ⟨h.source, h.bound, by dsimp only; omega, by dsimp only; omega, by rw [hLength]; exact hFits,
      by rw [hLength]; dsimp only; omega⟩

theorem copyFrom_ensures {n start : Nat} : Ensures
    (fun d => Within src maxLen lower (credit + n) d ∧ d.out.length + n ≤ maxLen ∧ start < d.out.length) (copyFrom start n)
    (fun _ => Within src maxLen lower credit) (Reported maxLen) := by
  induction n generalizing start with
  | zero => exact .pure fun d h => h.1
  | succ n ih =>
    refine .get_bind fun d hState => ?_
    obtain ⟨h, hRoom, hStart⟩ := hState
    refine .bind (index_ensures hStart) fun value => ?_
    refine .bind (.set ?_) fun _ => ih
    have hLength : (d.out ++ [value]).length = d.out.length + 1 := List.length_append
    have hPaid := h.paid
    refine ⟨⟨h.source, h.bound, h.lower, h.inside, ?_, ?_⟩, ?_, ?_⟩
    · rw [hLength]
      omega
    · rw [hLength]
      dsimp only
      omega
    · rw [hLength]
      omega
    · rw [hLength]
      omega

theorem backReference_ensures (hSrc : src.length < 2 ^ 50) {distance n : Nat} (hDistance : 0 < distance) :
    Ensures (Within src maxLen lower (credit + n)) (backReference distance n) (fun _ => Within src maxLen lower credit)
      (Reported maxLen) := by
  refine .get_bind fun d h => .ite (fun _ => .throw ?_) fun hBehind => ?_
  · rintro _ rfl
    exact ⟨⟨_, rfl⟩, h.fits⟩
  · have hPaid := h.paid
    have hInside := h.inside
    have hRoom : Ensures (· = d) (room n) (fun _ s => s = d ∧ s.out.length + n ≤ maxLen) (Reported maxLen) := by
      apply room_ensures
      rintro _ rfl
      exact ⟨h.bound, h.fits, by rw [wordSize]; omega⟩
    refine .bind hRoom fun _ => copyFrom_ensures.strengthen ?_
    rintro _ ⟨rfl, hFits⟩
    exact ⟨h, hFits, by omega⟩

theorem copy_ensures (hSrc : src.length < 2 ^ 50) {distance length : Nat} (hDistance : 0 < distance) (next : Nat) :
    Ensures (Within src maxLen lower (credit + length)) (copy distance length next)
      (fun _ => Within src maxLen lower credit) (Reported maxLen) := by
  refine .bind (backReference_ensures hSrc hDistance) fun _ => .bind (literals_ensures hSrc next) fun _ => ?_
  exact .pure fun d h => h

/-- A match of a length and a distance that are known, behind the reading of its instruction. -/
theorem match_ensures (hSrc : src.length < 2 ^ 50) {distance length next : Nat} (hDistance : 0 < distance)
    (hWord : distance < wordSize) (hLength : length ≤ credit) :
    Ensures (Within src maxLen lower credit) (do let distance ← usize distance; copy distance length next)
      (fun _ => Within src maxLen lower 0) (Reported maxLen) := by
  refine .bind (usize_ensures fun _ _ => hWord) fun value => .assume fun hValue => ?_
  subst hValue
  exact (copy_ensures hSrc hDistance next).strengthen fun d h => h.relax (by omega)

/-- A match whose length may be extended, read up to its second word. -/
theorem extended_ensures (hSrc : src.length < 2 ^ 50) {limit bits : Nat} (hLimit : limit < 256) (hBits : bits < 256)
    {next : Nat → Nat → Decoding (Option Nat)} {post : Option Nat → Decoder → Prop}
    (hNext : ∀ length v, v >>> 2 < 16384 → Ensures (Within src maxLen lower (length + 508)) (next length v) post (Reported maxLen)) :
    Ensures (Within src maxLen lower 255)
      (do let run ← runLength limit bits; let length ← usize (run + 2); let v ← le16; next length v) post (Reported maxLen) := by
  refine .bind (runLength_ensures hSrc hLimit hBits) fun run => ?_
  refine .bind (usize_ensures fun d h => h.word hSrc (by omega) (by omega)) fun length => .assume fun hLength => ?_
  refine .bind (le16_ensures hSrc) fun v => .assume fun hV => ?_
  apply (hNext length v (shiftRight_lt hV)).strengthen
  intro d h
  exact h.relax (by omega)

/-- Every instruction reads at least one byte and writes no more than it has paid for. -/
theorem instruction_ensures (hSrc : src.length < 2 ^ 50) (state : Nat) : Ensures (Within src maxLen lower 0) (instruction state)
    (fun _ => Within src maxLen (lower + 1) 0) (Reported maxLen) := by
  refine .bind (byte_ensures hSrc) fun t => .assume fun hT => ?_
  have hShort : t >>> 2 < 64 := shiftRight_lt hT
  refine .ite (fun hLow => ?_) fun _ => .ite (fun hM2 => ?_) fun _ => .ite (fun hM3 => ?_) fun _ => ?_
  · refine .ite (fun _ => ?_) fun _ => ?_
    · refine .bind (runLength_ensures hSrc (by omega) hT) fun length => ?_
      refine .bind (usize_ensures fun d h => h.word hSrc (by omega) (by omega)) fun run => .assume fun hRun => ?_
      refine .bind (literals_ensures hSrc run) fun _ => .pure fun d h => h.relax (Nat.zero_le _)
    · refine .bind (byte_ensures hSrc) fun b => .assume fun hB => ?_
      have hFar : b <<< 2 < 1024 := shiftLeft_lt hB
      have hWord : 1 + m2MaxOffset + (t >>> 2) + (b <<< 2) < wordSize := by
        rw [wordSize, m2MaxOffset]
        omega
      refine Ensures.weaken (.ite (fun _ => match_ensures hSrc ?_ ?_ ?_) fun _ => match_ensures hSrc ?_ hWord ?_) fun _ d h =>
        { h with lower := Nat.le_of_succ_le h.lower }
      all_goals omega
  · refine .bind (byte_ensures hSrc) fun b => .assume fun hB => ?_
    have hFar : b <<< 3 < 2048 := shiftLeft_lt hB
    have hNear : (t >>> 2) &&& 7 ≤ 7 := Nat.and_le_right
    have hLong : t >>> 5 < 8 := shiftRight_lt hT
    have hWord : 1 + ((t >>> 2) &&& 7) + (b <<< 3) < wordSize := by
      rw [wordSize]
      omega
    refine (match_ensures hSrc ?_ hWord ?_).weaken fun _ d h => { h with lower := Nat.le_of_succ_le h.lower }
    · omega
    · omega
  · have hBits : t &&& 31 ≤ 31 := Nat.and_le_right
    refine extended_ensures hSrc (by omega) (by omega) fun length v hFar => ?_
    apply match_ensures hSrc
    · omega
    · rw [wordSize]
      omega
    · omega
  · have hBits : t &&& 7 ≤ 7 := Nat.and_le_right
    refine extended_ensures hSrc (by omega) (by omega) fun length v hFar => ?_
    have hHigh : (t &&& 8) <<< 11 < 9 * 2 ^ 11 := shiftLeft_lt (Nat.lt_succ_of_le Nat.and_le_right)
    have hWord : ((t &&& 8) <<< 11) + (v >>> 2) < wordSize := by
      rw [wordSize]
      omega
    refine .bind (usize_ensures fun _ _ => hWord) fun far => .assume fun hValue => ?_
    refine .ite (fun _ => .pure fun d h => h.relax (Nat.zero_le _)) fun _ => match_ensures hSrc ?_ ?_ ?_
    · omega
    · rw [wordSize]
      omega
    · omega

theorem loop_ensures (hSrc : src.length < 2 ^ 50) {fuel : Nat} (hFuel : src.length < lower + fuel) (state : Nat) :
    Ensures (Within src maxLen lower 0) (loop fuel state) (fun _ d => d.out.length ≤ maxLen) (Reported maxLen) := by
  induction fuel generalizing lower state with
  | zero =>
    intro d h
    have hLower := h.lower
    have hInside := h.inside
    omega
  | succ fuel ih =>
    refine .bind (instruction_ensures hSrc state) fun next => ?_
    cases next with
    | none => exact .pure fun d h => h.fits
    | some next => exact ih (by omega) next

theorem opening_ensures (hSrc : src.length < 2 ^ 50) :
    Ensures (· = ⟨src, 0, [], maxLen⟩) opening (fun _ => Within src maxLen 0 0) (Reported maxLen) := by
  have hStart : Within src maxLen 0 0 ⟨src, 0, [], maxLen⟩ := ⟨rfl, rfl, Nat.le_refl 0, Nat.zero_le _, Nat.zero_le _, Nat.le_refl 0⟩
  refine .get_bind fun d hState => ?_
  subst hState
  cases src with
  | nil => exact .throw fun s hSame => ⟨⟨_, rfl⟩, hSame ▸ hStart.fits⟩
  | cons first rest =>
    have hSet : Ensures (· = ⟨first :: rest, 0, [], maxLen⟩) (set (⟨first :: rest, 1, [], maxLen⟩ : Decoder))
        (fun _ => Within (first :: rest) maxLen 0 0) (Reported maxLen) := by
      apply Ensures.set
      exact ⟨rfl, rfl, Nat.zero_le _, Nat.succ_le_succ (Nat.zero_le _), Nat.zero_le _, Nat.zero_le _⟩
    refine .ite (fun _ => .bind hSet fun _ => ?_) fun _ => .pure fun s hSame => hSame ▸ hStart
    exact .bind (literals_ensures hSrc _) fun _ => .pure fun d h => h

/-- Every run ends, with a value or with an error of the decoder's own, and keeps the output within its bound. -/
theorem run_ensures (hSrc : src.length < 2 ^ 50) :
    Ensures (· = ⟨src, 0, [], maxLen⟩) run (fun _ d => d.out.length ≤ maxLen) (Reported maxLen) := by
  refine .bind (opening_ensures hSrc) fun state => .get_bind fun d h => ?_
  have hLoop : Ensures (Within src maxLen 0 0) (loop (d.src.length + 1) state) (fun _ d => d.out.length ≤ maxLen)
      (Reported maxLen) := by
    apply loop_ensures hSrc
    rw [h.source]
    omega
  apply hLoop.strengthen
  rintro _ rfl
  exact h

end Decoder

theorem decompress_yields (hSrc : src.length < 2 ^ 50) (maxLen : Nat) :
    Yields (decompress src maxLen) fun out => out.length ≤ maxLen := by
  have hEnsures : Ensures (· = Decoder.start src maxLen) Decoder.run (fun _ d => d.out.length ≤ maxLen) (Reported maxLen) :=
    Decoder.run_ensures hSrc
  rw [decompress]
  cases hRun : Decoder.run (.start src maxLen) with
  | ok value d => exact hEnsures.ok rfl hRun
  | error e d => exact (hEnsures.error rfl hRun).1

/-- No sum overflows, no index is out of range, the loops end, and the output keeps its bound to the end. -/
theorem decompress_safe {src : List UInt8} (hSrc : src.length < 2 ^ 50) (maxLen : Nat) :
    (∀ out, decompress src maxLen = .ok out → out.length ≤ maxLen) ∧
      (∀ e, decompress src maxLen = .error e → ∃ message, e = .error message) ∧
      ∀ e d, Decoder.run (.start src maxLen) = .error e d → d.out.length ≤ maxLen := by
  have hYields := decompress_yields hSrc maxLen
  refine ⟨fun out hOut => ?_, fun e hError => hYields.error hError, fun e d hError => ?_⟩
  · rwa [hOut] at hYields
  · have hEnsures : Ensures (· = Decoder.start src maxLen) Decoder.run (fun _ d => d.out.length ≤ maxLen) (Reported maxLen) :=
      Decoder.run_ensures hSrc
    exact (hEnsures.error rfl hError).2

/-- A match before the start of the output. -/
theorem farMatch_safe :
    (∀ out, decompress [0x14, 1, 2, 3, 0xFC, 0x00] 64 = .ok out → out.length ≤ 64) ∧
      (∀ e, decompress [0x14, 1, 2, 3, 0xFC, 0x00] 64 = .error e → ∃ message, e = .error message) ∧
      ∀ e d, Decoder.run (.start [0x14, 1, 2, 3, 0xFC, 0x00] 64) = .error e d → d.out.length ≤ 64 :=
  decompress_safe (by decide) 64

end Pigeon.Transform.Lzo1x
