import Pigeon.Library.Text
import Pigeon.Library.Raster
import Pigeon.Transform.Lzo1x

/-! # The composite of a Procreate document

The tiles of a layer are entries of a zip, named by column and row. Each is decompressed and copied to its place on the
canvas, and the canvas is then turned from premultiplied to straight alpha. What is stored lies upside down, and is turned
as the orientation of the document says.
-/
namespace Pigeon.Transform.Procreate

open Library Text

set_option autoImplicit false

def maxSide : Nat := 16384

def notAProcreateSignature : String := "is not a readable Procreate document"

def unreadable (detail : String) : Halt := .error s!"{detail} -- {notAProcreateSignature}"

/-- An RGBA8 image. -/
structure Image where
  width : Nat
  height : Nat
  pixels : List UInt8
deriving DecidableEq, Repr

/-- What is read of `Document.archive`, which keeps the bounds that its parser checks. -/
structure Document where
  width : Nat
  height : Nat
  tileSize : Nat
  compositeUuid : Text
  width_mem : 1 ≤ width ∧ width ≤ maxSide
  height_mem : 1 ≤ height ∧ height ≤ maxSide
  tileSize_mem : 16 ≤ tileSize ∧ tileSize ≤ 4096

/-- An opened archive: the names of its entries, and for each name what it takes to find the entry and to read it. -/
structure Zip where
  fileNames : List Text
  byName : Text → Except String (Except String (List UInt8))

def readEntry (zip : Zip) (name : Text) : Except Halt (List UInt8) :=
  match zip.byName name with
  | .error err => .error (unreadable s!"missing {String.ofList name}: {err}")
  | .ok (.error err) => .error (unreadable s!"failed to read {String.ofList name}: {err}")
  | .ok (.ok bytes) => .ok bytes

structure Tile where
  name : Text
  col : UInt32
  row : UInt32
deriving DecidableEq, Repr

/-- `str::strip_prefix` -/
def stripPrefix (pre s : Text) : Option Text := if pre <+: s then some (s.drop pre.length) else none

/-- `<uuid>/<col>~<row>.chunk` -/
def tilePosition (name uuid : Text) : Option (UInt32 × UInt32) := do
  let rest ← stripPrefix ['/'] (← stripPrefix uuid name)
  let (col, row) ← splitOnce ['~'] (← stripSuffix ".chunk".toList rest)
  return (← parseU32 col, ← parseU32 row)

/-- The tiles of the composite layer. They are collected into a map by their names, so their order is not fixed. -/
def tiles (zip : Zip) (document : Document) : List Tile :=
  zip.fileNames.dedup.filterMap fun name =>
    (tilePosition name document.compositeUuid).map fun (col, row) => ⟨name, col, row⟩

namespace Document

def x0 (document : Document) (tile : Tile) : Nat := tile.col.toNat * document.tileSize

def y0 (document : Document) (tile : Tile) : Nat := tile.row.toNat * document.tileSize

/-- A tile at the edge is stored cropped to the canvas. -/
def tileWidth (document : Document) (tile : Tile) : Nat := min document.tileSize (document.width - document.x0 tile)

def tileHeight (document : Document) (tile : Tile) : Nat := min document.tileSize (document.height - document.y0 tile)

def tileBytes (document : Document) (tile : Tile) : Nat := document.tileWidth tile * document.tileHeight tile * 4

end Document

/-- `Result::map_err` -/
def mapErr {α : Type} (wrap : String → Halt) : Except Halt α → Except Halt α
  | .error (.error message) => .error (wrap message)
  | outcome => outcome

def decodeTile (zip : Zip) (document : Document) (tile : Tile) : Except Halt (List UInt8) := do
  let tileBytes ← word (document.tileBytes tile)
  let compressed ← readEntry zip tile.name
  let raw ← mapErr (fun err => unreadable s!"tile {String.ofList tile.name}: {err}") (Lzo1x.decompress compressed tileBytes)
  if raw.length = tileBytes then return raw
  else throw (unreadable (s!"tile {String.ofList tile.name} decompressed to {raw.length} bytes, expected {tileBytes} " ++
    s!"({document.tileWidth tile}x{document.tileHeight tile})"))

/-- The body of the loop over the rows of a tile. -/
def copyRow (document : Document) (tile : Tile) (raw pixels : List UInt8) (ty : Nat) : Except Halt (List UInt8) := do
  let start ← word (ty * document.tileWidth tile * 4)
  let rest ← slice raw start raw.length
  let src ← slice rest 0 (document.tileWidth tile * 4)
  let dst ← word (((document.y0 tile + ty) * document.width + document.x0 tile) * 4)
  let stop ← word (dst + document.tileWidth tile * 4)
  copyFromSlice pixels dst stop src

/-- The body of the loop over the tiles. -/
def paint (zip : Zip) (document : Document) (pixels : List UInt8) (tile : Tile) : Except Halt (List UInt8) :=
  if document.width ≤ document.x0 tile ∨ document.height ≤ document.y0 tile then
    .error (unreadable s!"tile {String.ofList tile.name} lies outside the canvas")
  else do
    let raw ← decodeTile zip document tile
    (List.range (document.tileHeight tile)).foldlM (copyRow document tile raw) pixels

/-- A channel of a pixel, no longer multiplied by its alpha. -/
def straight (alpha channel : UInt8) : UInt8 :=
  if alpha = 0 ∨ alpha = 255 then channel
  else UInt8.ofNat (min ((channel.toNat * 255 + alpha.toNat / 2) / alpha.toNat) 255)

def unpremultiply : List UInt8 → List UInt8
  | red :: green :: blue :: alpha :: rest =>
    straight alpha red :: straight alpha green :: straight alpha blue :: alpha :: unpremultiply rest
  | rest => rest

/-- The image of a layer whose tiles are visited in this order. -/
def assemble (zip : Zip) (document : Document) (visiting : List Tile) : Except Halt Image := do
  let size ← word (document.width * document.height * 4)
  if visiting.isEmpty then throw (unreadable "the composite layer has no tiles")
  else
    let pixels ← visiting.foldlM (paint zip document) (List.replicate size 0)
    return ⟨document.width, document.height, unpremultiply pixels⟩

/-- The body of the loop over the rows that change places. -/
def swapRows (height row : Nat) (pixels : List UInt8) (y : Nat) : Except Halt (List UInt8) := do
  let below ← minus (← minus height 1) y
  let mid ← word (below * row)
  let top ← slice pixels 0 mid
  let bottom ← slice pixels mid pixels.length
  let start ← word (y * row)
  let stop ← word ((y + 1) * row)
  let upper ← slice top start stop
  let lower ← slice bottom 0 row
  return (← copyFromSlice top start stop lower) ++ (← copyFromSlice bottom 0 row upper)

def flipVertical (image : Image) : Except Halt Image := do
  let row ← word (image.width * 4)
  let pixels ← (List.range (image.height / 2)).foldlM (swapRows image.height row) image.pixels
  return ⟨image.width, image.height, pixels⟩

inductive Rotation where
  | clockwise
  | counterClockwise
  | half
deriving DecidableEq, Repr

namespace Rotation

def outWidth (rotation : Rotation) (w h : Nat) : Nat :=
  match rotation with
  | .half => w
  | .clockwise | .counterClockwise => h

def outHeight (rotation : Rotation) (w h : Nat) : Nat :=
  match rotation with
  | .half => h
  | .clockwise | .counterClockwise => w

def target (rotation : Rotation) (w h x y : Nat) : Except Halt (Nat × Nat) :=
  match rotation with
  | .clockwise => do return (← minus (← minus h 1) y, x)
  | .counterClockwise => do return (y, ← minus (← minus w 1) x)
  | .half => do return (← minus (← minus w 1) x, ← minus (← minus h 1) y)

end Rotation

/-- The body of the loop over the pixels of a row. -/
def turnPixel (image : Image) (rotation : Rotation) (y : Nat) (pixels : List UInt8) (x : Nat) :
    Except Halt (List UInt8) := do
  let (nx, ny) ← rotation.target image.width image.height x y
  let src ← word ((y * image.width + x) * 4)
  let dst ← word ((ny * rotation.outWidth image.width image.height + nx) * 4)
  let pixel ← slice image.pixels src (← word (src + 4))
  copyFromSlice pixels dst (← word (dst + 4)) pixel

def rotate (image : Image) (rotation : Rotation) : Except Halt Image := do
  let pixels ← (List.range image.height).foldlM
    (fun pixels y => (List.range image.width).foldlM (turnPixel image rotation y) pixels)
    (List.replicate image.pixels.length 0)
  return ⟨rotation.outWidth image.width image.height % 2 ^ 32, rotation.outHeight image.width image.height % 2 ^ 32, pixels⟩

def orient (image : Image) (orientation : Int) : Except Halt Image :=
  match orientation with
  | 1 => .ok image
  | 2 => rotate image .half
  | 3 => rotate image .counterClockwise
  | 4 => rotate image .clockwise
  | other => .error (unreadable s!"unknown canvas orientation {other}")

/-- The part of `export_png` between the archive and the thumbnail. -/
def oriented (zip : Zip) (document : Document) (visiting : List Tile) (orientation : Int) : Except Halt Image := do
  let composite ← assemble zip document visiting
  orient (← flipVertical composite) orientation

end Pigeon.Transform.Procreate
