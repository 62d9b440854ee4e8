import FlashRing.Store.Request

/-!
The commands of the command line, the requests they make of a store, and the lines they print.
-/

namespace FlashRing

/-- What the command line is asked to do with an image. -/
inductive Command where
  | format
  | get (key : UInt16)
  | set (key value : UInt16)
  | del (key : UInt16)
  | getArray (key : UInt16)
  | setArray (key : UInt16) (bytes : List UInt8)
  | delArray (key : UInt16)
  | list
  | compact
  | eraseCounter
  | inspect
deriving DecidableEq

namespace Command

/-- The request that carries the command out. -/
def request : Command → Request
  | .format => .format
  | .get key => .read key
  | .set key value => .write key value
  | .del key => .delete key
  | .getArray key => .readArray key
  | .setArray key bytes => .writeArray key bytes
  | .delArray key => .deleteArray key
  | .list => .entries
  | .compact => .compact
  | .eraseCounter => .eraseCounter
  | .inspect => .inspect

/-- Formatting and inspecting also serve images on which a store cannot be started. -/
def needsReadyStore : Command → Bool
  | .format => false
  | .inspect => false
  | _ => true

/-- Starts the store if the command needs that, and carries the command out. -/
def perform {δ : Type} [Device δ] (command : Command) : StoreM δ Reply := do
  if command.needsReadyStore then Store.init
  command.request.run

end Command

end FlashRing
