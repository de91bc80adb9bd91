import Pigeon.Library.Program
import Pigeon.Library.Checked

/-! # LZO1X decompression

The decoder reads its input byte by byte and writes from the input or from what it has written. Sums that a machine
word has to hold are checked, and so is every index, apart from the errors that the decoder reports.
-/
namespace Pigeon.Transform.Lzo1x

open Library

set_option autoImplicit false

structure Decoder where
  src : List UInt8
  ip : Nat
  out : List UInt8
  maxLen : Nat

abbrev Decoding (α : Type) : Type := EStateM Halt Decoder α

def m2MaxOffset : Nat := 0x0800

/-- The value of a sum of words. -/
def usize (value : Nat) : Decoding Nat := if value < wordSize then pure value else throw .panic

def index (bytes : List UInt8) (position : Nat) : Decoding UInt8 :=
  match bytes[position]? with
  | some value => pure value
  | none => throw .panic

namespace Decoder

def start (src : List UInt8) (maxLen : Nat) : Decoder := ⟨src, 0, [], maxLen⟩

def byte : Decoding Nat := do
  let d ← get
  match d.src[d.ip]? with
  | none => throw (.error "lzo: input ended mid-instruction")
  | some value =>
    let ip ← usize (d.ip + 1)
    set { d with ip := ip }
    return value.toNat

def le16 : Decoding Nat := do
  let low ← byte
  let high ← byte
  return low ||| (high <<< 8)

def countZeros : Nat → Nat → Decoding Nat
  | 0, _ => throw .exhausted
  | fuel + 1, zeros => do
    let value ← byte
    if value = 0 then
      let zeros ← usize (zeros + 1)
      countZeros fuel zeros
    else return zeros

/-- `self.src[self.ip - 1]` -/
def lastByte : Decoding UInt8 := do
  let d ← get
  if d.ip = 0 then throw .panic else index d.src (d.ip - 1)

def zeroRun (base : Nat) : Decoding Nat := do
  let d ← get
  let zeros ← countZeros (d.src.length + 1) 0
  let last ← lastByte
  let extra ← usize (base + last.toNat)
  if zeros * 255 + extra < wordSize then return zeros * 255 + extra else throw (.error "lzo: length overflow")

/-- A length of an instruction, which is extended where its bits are zero. -/
def runLength (base bits : Nat) : Decoding Nat := if bits = 0 then zeroRun base else pure bits

def room (n : Nat) : Decoding PUnit := do
  let d ← get
  let size ← usize (d.out.length + n)
  if d.maxLen < size then throw (.error s!"lzo: output would exceed the expected {d.maxLen} bytes")

def literals (n : Nat) : Decoding PUnit := do
  let d ← get
  let stop := d.ip + n
  if wordSize ≤ stop then throw (.error "lzo: length overflow")
  else if d.src.length < stop then throw (.error "lzo: literal run past the end of the input")
  else
    room n
    set { d with out := d.out ++ (d.src.drop d.ip).take n, ip := stop }

/-- The loop that copies byte by byte, from `start` on. -/
def copyFrom (start : Nat) : Nat → Decoding PUnit
  | 0 => pure ⟨⟩
  | n + 1 => do
    let d ← get
    let value ← index d.out start
    set { d with out := d.out ++ [value] }
    copyFrom (start + 1) n

def backReference (distance n : Nat) : Decoding PUnit := do
  let d ← get
  if d.out.length < distance then throw (.error "lzo: back-reference before the start of the output")
  else
    room n
    copyFrom (d.out.length - distance) n

/-- A match and the literals behind it; the state is how many they are. -/
def copy (distance length next : Nat) : Decoding (Option Nat) := do
  backReference distance length
  literals next
  return some next

/-- The body of the loop of `decompress`, which ends it or goes on in the next state. -/
def instruction (state : Nat) : Decoding (Option Nat) := do
  let t ← byte
  if t < 16 then
    if state = 0 then
      let length ← runLength 15 t
      let run ← usize (length + 3)
      literals run
      return some 4
    else
      let b ← byte
      if state ≠ 4 then
        let distance ← usize (1 + (t >>> 2) + (b <<< 2))
        copy distance 2 (t &&& 3)
      else
        let distance ← usize (1 + m2MaxOffset + (t >>> 2) + (b <<< 2))
        copy distance 3 (t &&& 3)
  else if 64 ≤ t then
    let b ← byte
    let distance ← usize (1 + ((t >>> 2) &&& 7) + (b <<< 3))
    copy distance ((t >>> 5) + 1) (t &&& 3)
  else if 32 ≤ t then
    let run ← runLength 31 (t &&& 31)
    let length ← usize (run + 2)
    let v ← le16
    let distance ← usize (1 + (v >>> 2))
    copy distance length (v &&& 3)
  else
    let run ← runLength 7 (t &&& 7)
    let length ← usize (run + 2)
    let v ← le16
    let far ← usize (((t &&& 8) <<< 11) + (v >>> 2))
    if far = 0 then return none
    else
      let distance ← usize (far + 0x4000)
      copy distance length (v &&& 3)

def loop : Nat → Nat → Decoding PUnit
  | 0, _ => throw .exhausted
  | fuel + 1, state => do
    match ← instruction state with
    | some next => loop fuel next
    | none => return ⟨⟩

/-- The literals that may stand before the first instruction, and the state behind them. -/
def opening : Decoding Nat := do
  let d ← get
  match d.src with
  | [] => throw (.error "lzo: empty input")
  | first :: _ =>
    if 17 < first.toNat then
      set { d with ip := 1 }
      literals (first.toNat - 17)
      return if first.toNat - 17 < 4 then first.toNat - 17 else 4
    else return 0

def run : Decoding PUnit := do
  let state ← opening
  let d ← get
  loop (d.src.length + 1) state

end Decoder

/-- The decompressed bytes, or how the run ended without them. -/
def decompress (src : List UInt8) (maxLen : Nat) : Except Halt (List UInt8) :=
  match Decoder.run (.start src maxLen) with
  | .ok _ d => .ok d.out
  | .error e _ => .error e

end Pigeon.Transform.Lzo1x
