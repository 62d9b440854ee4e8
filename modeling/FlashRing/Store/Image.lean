import FlashRing.Device.Image
import FlashRing.Store.Basic

/-!
A store on an image file. The file is opened or created first, then the ring is laid out on it.
-/

namespace FlashRing.Store

/-- Opens the image that a configuration names, with what its path leads to; the second part of the
result is what the path leads to afterwards. -/
def openImage (config : Config) (entry : HostEntry) : Except Error (Store Image) × HostEntry :=
  match Image.load config.imagePath config.imageGeometry entry with
  | .error e => (.error e, entry)
  | .ok image => (attach image config, .file image.content)

end FlashRing.Store
