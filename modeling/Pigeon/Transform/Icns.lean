import Pigeon.Library.Lossy
import Pigeon.Library.Checked
import Pigeon.Library.FirstMax

/-! # The largest image of an icon

An `.icns` file is walked entry by entry, each of them a type, the length of the whole entry and a payload. Of the
entries that hold a PNG or JPEG 2000 file the first one that is largest is taken.
-/
namespace Pigeon.Transform.Icns

open Library

set_option autoImplicit false

def notAnIcnsSignature : String := "is not a readable icns icon"

/-- A byte string literal. -/
def ascii (text : String) : List UInt8 := text.toList.map fun c => UInt8.ofNat c.toNat

def pngMagic : List UInt8 := [0x89, 0x50, 0x4E, 0x47, 0x0D, 0x0A, 0x1A, 0x0A]

def jp2Magic : List UInt8 := [0x00, 0x00, 0x00, 0x0C, 0x6A, 0x50, 0x20, 0x20, 0x0D, 0x0A, 0x87, 0x0A]

def j2kCodestreamMagic : List UInt8 := [0xFF, 0x4F, 0xFF, 0x51]

inductive Encoding where
  | png
  | jpeg2000
deriving DecidableEq, Repr

structure Entry where
  kind : List UInt8
  encoding : Encoding
  data : List UInt8
deriving DecidableEq, Repr

def nominalSize (kind : List UInt8) : Option Nat :=
  if kind = ascii "icp4" then some 16
  else if kind = ascii "icp5" ∨ kind = ascii "ic11" then some 32
  else if kind = ascii "icp6" ∨ kind = ascii "ic12" then some 64
  else if kind = ascii "ic07" then some 128
  else if kind = ascii "ic08" ∨ kind = ascii "ic13" then some 256
  else if kind = ascii "ic09" ∨ kind = ascii "ic14" then some 512
  else if kind = ascii "ic10" then some 1024
  else none

def encodingOf (data : List UInt8) : Option Encoding :=
  if pngMagic <+: data then some .png
  else if jp2Magic <+: data ∨ j2kCodestreamMagic <+: data then some .jpeg2000
  else none

/-- `u32::from_be_bytes` -/
def fromBeBytes (field : List UInt8) : Nat := Nat.ofDigits 256 (field.reverse.map UInt8.toNat)

def headerError : Halt := .error s!"does not start with an icns header -- {notAnIcnsSignature}"

def overrunError (kind : List UInt8) (offset : Nat) : Halt :=
  .error s!"entry {String.ofList (Utf8.lossy kind)} at byte {offset} overruns the file -- {notAnIcnsSignature}"

def noImageError : Halt := .error s!"has no PNG or JPEG 2000 image -- {notAnIcnsSignature}"

/-- Whether an image of this size and payload replaces the best one so far. -/
def better (best : Option (Nat × Entry)) (size : Nat) (data : List UInt8) : Bool :=
  match best with
  | none => true
  | some (bestSize, bestEntry) => bestSize < size ∨ bestSize = size ∧ bestEntry.data.length < data.length

def updated (best : Option (Nat × Entry)) (kind data : List UInt8) : Option (Nat × Entry) :=
  match nominalSize kind, encodingOf data with
  | some size, some encoding => if better best size data then some (size, ⟨kind, encoding, data⟩) else best
  | _, _ => best

/-- Whether the entry at `offset` is shorter than its own header or ends behind the file. -/
def overruns (bytes : List UInt8) (offset length : Nat) : Except Halt Bool :=
  if length < 8 then return true
  else do
    let stop ← word (offset + length)
    return decide (bytes.length < stop)

/-- The loop over the entries, from `offset` on. -/
def walk (bytes : List UInt8) : Nat → Nat → Option (Nat × Entry) → Except Halt (Option (Nat × Entry))
  | 0, _, _ => .error .exhausted
  | fuel + 1, offset, best => do
    let header ← word (offset + 8)
    if bytes.length < header then return best
    else
      let kind ← slice bytes offset (offset + 4)
      let field ← slice bytes (offset + 4) (offset + 8)
      let length := fromBeBytes field
      if ← overruns bytes offset length then throw (overrunError kind offset)
      else
        let data ← slice bytes (offset + 8) (offset + length)
        walk bytes fuel (offset + length) (updated best kind data)

def headed (bytes : List UInt8) : Except Halt Bool :=
  if bytes.length < 8 then return false
  else do
    let magic ← slice bytes 0 4
    return decide (magic = ascii "icns")

def largestEntry (bytes : List UInt8) : Except Halt Entry := do
  if ← headed bytes then
    match ← walk bytes (bytes.length + 1) 8 none with
    | some (_, entry) => return entry
    | none => throw noImageError
  else throw headerError

end Pigeon.Transform.Icns
