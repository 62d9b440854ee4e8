import FlashRing.Store.ByteArray
import FlashRing.Store.Report
import FlashRing.Store.Startup

/-!
The operations of a store as data, with the answer of each, so that sequences of them can be run
and reasoned about.
-/

namespace FlashRing

/-- An operation of a store. -/
inductive Request where
  | init
  | format
  | compact
  | read (key : UInt16)
  | write (key payload : UInt16)
  | delete (key : UInt16)
  | readArray (key : UInt16)
  | readArrayOfLength (key : UInt16) (count : Nat)
  | writeArray (key : UInt16) (bytes : List UInt8)
  | writeArrayOfLength (key : UInt16) (bytes : List UInt8)
  | deleteArray (key : UInt16)
  | eraseCounter
  | entries
  | inspect
  /-- Adds to the payload of a key, which counts as zero if there is none: a read and a write that
  run as one while a store that is shared is locked. -/
  | add (key amount : UInt16)
deriving DecidableEq

/-- What a store answers. -/
inductive Reply where
  | done
  | payload (value : Option UInt16)
  | existed (found : Bool)
  | bytes (value : Option (List UInt8))
  | count (value : Nat)
  | entries (value : List (UInt16 × UInt16))
  | reports (value : List PageReport)
deriving DecidableEq

/-- Carries an operation out. -/
def Request.run {δ : Type} [Device δ] : Request → StoreM δ Reply
  | .init => do Store.init; return .done
  | .format => do Store.format; return .done
  | .compact => do Store.compact; return .done
  | .read key => return .payload (← Store.read key)
  | .write key payload => do Store.write key payload; return .done
  | .delete key => return .existed (← Store.delete key)
  | .readArray key => return .bytes (← Store.readArray key)
  | .readArrayOfLength key count => return .bytes (← Store.readArrayOfLength key count)
  | .writeArray key bytes => do Store.writeArray key bytes; return .done
  | .writeArrayOfLength key bytes => do Store.writeArrayOfLength key bytes; return .done
  | .deleteArray key => return .existed (← Store.deleteArray key)
  | .eraseCounter => return .count (← Store.eraseCounter)
  | .entries => return .entries (← Store.entries)
  | .inspect => return .reports (← Store.inspect)
  | .add key amount => do
    let sum := (← Store.read key).getD 0 + amount
    Store.write key sum
    return .payload (some sum)

end FlashRing
