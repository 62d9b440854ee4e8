import FlashRing.Error
import FlashRing.Geometry

/-!
Block-erasable memory, the ground a store stands on. Reading never changes a device; programming
and erasing may fail, and what is left of the device then is part of their result.
-/

namespace FlashRing

/-- Memory whose words are programmed one by one and erased by the page. Programming keeps a bit
only where the old and the new word both have it; erasing sets every bit of a page. -/
class Device (δ : Type) where
  /-- The shape of the device, which no operation changes. -/
  geometry : δ → Geometry
  read : δ → Nat → Except Error UInt32
  /-- Programs consecutive words from an address on. -/
  program : Nat → List UInt32 → EStateM Error δ Unit
  /-- Erases the page of a number. -/
  erase : Nat → EStateM Error δ Unit

namespace Geometry

/-- The failure of a device that is asked for words beyond its end. -/
def outOfRange (geometry : Geometry) (medium : Medium) (first count : Nat) : Error :=
  .blockDevice (.outOfRange medium first (first + count) geometry.totalWords)

/-- The failure of a device that is asked to erase a page beyond its last. -/
def noSuchPage (geometry : Geometry) (medium : Medium) (page : Nat) : Error :=
  .blockDevice (.noSuchPage medium page geometry.pageCount)

end Geometry

end FlashRing
