import FlashRing.Geometry

/-!
The settings of a store: which pages of the device form its ring, and the shape of the image file
behind it, if there is one.
-/

namespace FlashRing

/-- When an image file is flushed to stable storage. -/
inductive SyncPolicy where
  | everyOperation
  /-- Only when the caller asks for it. -/
  | deferred
deriving DecidableEq

structure Config where
  /-- The pages of the ring; a ring has at least two, whatever stands here. -/
  ringPages : Nat := 4
  /-- The device page that is the first of the ring. -/
  basePage : Nat := 0
  imagePath : String := "./eeprom.img"
  pageWords : Nat := 512
  /-- The pages of an image file. -/
  devicePages : Nat := 4
  sync : SyncPolicy := .everyOperation
deriving DecidableEq

/-- The shape that an image file must have. -/
def Config.imageGeometry (config : Config) : Geometry where
  pageWords := config.pageWords
  pageCount := config.devicePages

end FlashRing
