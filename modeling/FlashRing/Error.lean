import FlashRing.Text.Hex

/-!
What can go wrong, each failure by its cause, and the one text that reports it. The failures of a
device stand apart from all others: after one of them nobody knows what the flash holds.
-/

namespace FlashRing

/-- What holds the words of a device. -/
inductive Medium where
  | ram
  | image
deriving DecidableEq

/-- The word by which messages refer to the medium. -/
def Medium.noun : Medium → String
  | .ram => "device"
  | .image => "image"

/-- The two operations that change flash. -/
inductive Mutation where
  | program
  | erase
deriving DecidableEq

def Mutation.verb : Mutation → String
  | .program => "program"
  | .erase => "erase"

/-- Why the host could not serve an image file. -/
inductive HostFault where
  | notFound
  | isDirectory
  /-- The file ended before the last byte asked for. -/
  | shortRead
  | reported (text : String)
deriving DecidableEq

def HostFault.text : HostFault → String
  | .notFound => "No such file or directory (os error 2)"
  | .isDirectory => "Is a directory (os error 21)"
  | .shortRead => "failed to fill whole buffer"
  | .reported text => text

/-- Why a device refused or failed an operation. -/
inductive DeviceFault where
  /-- Words from `first` up to but not including `stop` were asked of a device of `words` words. -/
  | outOfRange (medium : Medium) (first stop words : Nat)
  | noSuchPage (medium : Medium) (page pages : Nat)
  /-- Power went just before the operation. -/
  | powerCut (operation : Mutation)
  /-- Power has been gone since an earlier operation. -/
  | poweredDown (operation : Mutation)
  | reported (text : String)
deriving DecidableEq

def DeviceFault.text : DeviceFault → String
  | .outOfRange medium first stop words =>
    "address range 0x" ++ Text.hex first ++ "..0x" ++ Text.hex stop ++ " outside " ++ medium.noun ++
      s!" ({words} words)"
  | .noSuchPage medium page pages =>
    s!"erase of page {page} outside " ++ medium.noun ++ s!" ({pages} pages)"
  | .powerCut operation => operation.verb ++ ": injected fault"
  | .poweredDown operation => operation.verb ++ ": device powered down"
  | .reported text => text

/-- Why the statuses of the pages allow no decision. -/
inductive IntegrityFault where
  | severalActive (indices : List Nat)
  | severalReceiving (indices : List Nat)
  | reported (text : String)
deriving DecidableEq

/-- Numbers in brackets, parted by commas. -/
def listText (numbers : List Nat) : String :=
  "[" ++ ", ".intercalate (numbers.map toString) ++ "]"

def IntegrityFault.text : IntegrityFault → String
  | .severalActive indices => toString indices.length ++ " active pages: " ++ listText indices
  | .severalReceiving indices => toString indices.length ++ " receiving pages: " ++ listText indices
  | .reported text => text

/-- Why a configuration does not describe a usable store. -/
inductive ConfigFault where
  | pageTooSmall (words : Nat)
  | unaddressable (pages words : Nat)
  | ringOutside (first stop pages : Nat)
  | imageGeometry (pages words : Nat)
  | imageLength (path : String) (actual expected : Nat)
  | pageRangeOverflow (base pages : Nat)
  | reported (text : String)
deriving DecidableEq

def ConfigFault.text : ConfigFault → String
  | .pageTooSmall words => s!"pages of {words} words leave no room for slots"
  | .unaddressable pages words =>
    s!"device of {pages} pages of {words} words exceeds 32-bit word addressing"
  | .ringOutside first stop pages => s!"pages {first}..{stop} exceed device with {pages} pages"
  | .imageGeometry pages words => s!"invalid image geometry: {pages} pages of {words} words"
  | .imageLength path actual expected =>
    s!"image {path} is {actual} bytes, geometry expects {expected}"
  | .pageRangeOverflow base pages =>
    s!"base page {base} plus {pages} ring pages overflows the page range"
  | .reported text => text

/-- A failed operation of a store or of its device. -/
inductive Error where
  | io (fault : HostFault)
  | blockDevice (fault : DeviceFault)
  /-- The store has to be started or formatted first. -/
  | notInitialized
  /-- No page of the ring is active or receiving. -/
  | unformatted
  | integrity (fault : IntegrityFault)
  | storeFull (live capacity : Nat)
  | invalidKey (key : UInt16)
  | invalidLength (length : Nat)
  /-- Only the first bytes of an array are there. -/
  | partialArrayRead (recovered : List UInt8) (expected : Nat)
  | config (fault : ConfigFault)
  /-- No failure that is returned but a panic: more bytes are asked for than a vector can hold. -/
  | capacityOverflow
deriving DecidableEq

namespace Error

/-- The text shown to the user. -/
def message : Error → String
  | .io fault => "IO error: " ++ fault.text
  | .blockDevice fault => "Block device failure: " ++ fault.text
  | .notInitialized => "Store not initialized"
  | .unformatted => "Store is not formatted: no active or receiving page found"
  | .integrity fault => "Integrity error: " ++ fault.text
  | .storeFull live capacity => s!"Store full: {live} live keys do not fit {capacity} slots"
  | .invalidKey key => "Invalid key: " ++ Text.hexHalf key
  | .invalidLength length => s!"Invalid array length: {length} (expected 1..=255)"
  | .partialArrayRead recovered expected =>
    "Partial array read: recovered " ++ toString recovered.length ++ s!" of {expected} bytes"
  | .config fault => "Configuration error: " ++ fault.text
  | .capacityOverflow => "capacity overflow"

/-- Whether the device failed, so that the flash has to be scanned again before any use. -/
def isDeviceFailure : Error → Bool
  | .io _ => true
  | .blockDevice _ => true
  | _ => false

end Error

end FlashRing
