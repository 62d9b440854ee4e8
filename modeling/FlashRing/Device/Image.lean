import FlashRing.Device.Basic
import FlashRing.Device.FileContent

/-!
Flash kept in an image file: the words of the device one after the other, four bytes each, with no
header. An image is opened from what its path leads to; a new file starts erased.
-/

namespace FlashRing

/-- What the path of an image leads to on the host. -/
inductive HostEntry where
  /-- No file yet, in a directory that exists. -/
  | missing
  | file (content : FileContent)
  | directory
  /-- The directory of the path does not exist. -/
  | unreachable

/-- The bytes of the file at a path, if there is one. -/
def HostEntry.content? : HostEntry → Option FileContent
  | .file content => some content
  | _ => none

/-- An open image file. -/
structure Image where
  geometry : Geometry
  /-- The bytes of the file. Others may cut it short, and erasing extends it again. -/
  content : FileContent

namespace Image

/-- Opens an image or creates an erased one. An existing file must have the length that the
geometry asks for. -/
def load (path : String) (geometry : Geometry) (entry : HostEntry) : Except Error Image :=
  let length := 4 * geometry.totalWords
  if geometry.pageWords < 2 ∨ geometry.pageCount = 0 ∨ ¬geometry.Addressable then
    .error (.config (.imageGeometry geometry.pageCount geometry.pageWords))
  else
    match entry with
    | .missing => .ok ⟨geometry, .erased geometry.totalWords⟩
    | .file content =>
      if content.size = length then .ok ⟨geometry, content⟩
      else .error (.config (.imageLength path content.size length))
    | .directory => .error (.io .isDirectory)
    | .unreachable => .error (.io .notFound)

/-- The word at an address. The range is checked first, then whether the file still reaches. -/
def read (image : Image) (address : Nat) : Except Error UInt32 :=
  if image.geometry.totalWords < address + 1 then
    .error (image.geometry.outOfRange .image address 1)
  else
    match image.content.word? address with
    | some word => .ok word
    | none => .error (.io .shortRead)

/-- The words from an address on, as long as the file holds them. -/
def wordsFrom? (content : FileContent) (address : Nat) : Nat → Option (List UInt32)
  | 0 => some []
  | count + 1 => do
    let word ← content.word? address
    let rest ← wordsFrom? content (address + 1) count
    return word :: rest

/-- Programs consecutive words: they are read, masked and written back together. -/
def program (address : Nat) (values : List UInt32) : EStateM Error Image Unit := fun image =>
  if image.geometry.totalWords < address + values.length then
    .error (image.geometry.outOfRange .image address values.length) image
  else
    match wordsFrom? image.content address values.length with
    | none => .error (.io .shortRead) image
    | some stored =>
      let masked := List.zipWith (· &&& ·) stored values
      .ok () { image with
        content := image.content.overwrite (4 * address) (masked.flatMap Word.toBytes) }

/-- Erases a page by writing it whole. -/
def erase (page : Nat) : EStateM Error Image Unit := fun image =>
  if image.geometry.pageCount ≤ page then .error (image.geometry.noSuchPage .image page) image
  else
    .ok () { image with
      content := image.content.overwrite (4 * image.geometry.pageAddress page)
        (List.replicate (4 * image.geometry.pageWords) 0xFF) }

instance : Device Image where
  geometry := Image.geometry
  read := read
  program := program
  erase := erase

end Image

end FlashRing
