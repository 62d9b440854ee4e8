import FlashRing.Command.Basic
import FlashRing.Text.HexBytes

/-!
The lines that commands print.
-/

namespace FlashRing

/-- A text filled up with spaces on the right. -/
def padRight (width : Nat) (text : String) : String :=
  text ++ String.ofList (List.replicate (width - text.length) ' ')

/-- A payload in both bases. -/
def payloadText (value : UInt16) : String :=
  Text.hexHalf value ++ " (" ++ toString value.toNat ++ ")"

/-- The line that describes a page. -/
def PageReport.line (report : PageReport) : String :=
  let counter := (report.eraseCount.map toString).getD "-"
  "page " ++ toString report.page.index ++ " (device " ++ toString report.page.devicePage ++ "): " ++
    padRight 12 report.status.name ++ " erase_count=" ++ padRight 8 counter ++
    " used=" ++ toString report.usedSlots ++ "/" ++ toString report.page.capacity ++
    " live=" ++ toString report.liveKeys ++ " tombstones=" ++ toString report.tombstones ++
    " crc32=" ++ Text.hexWord report.checksum

/-- What is printed where nothing is stored. -/
def notFound : String := "(not found)"

/-- The lines that a command prints for a reply; `active` is the active page afterwards. -/
def Command.lines (command : Command) (active : Option Nat) : Reply → List String
  | .payload value => [(value.map payloadText).getD notFound]
  | .existed found => [if found then "deleted" else notFound]
  | .bytes value => [(value.map HexBytes.encode).getD notFound]
  | .count value => [toString value]
  | .entries value =>
    value.map fun (key, payload) => Text.hexHalf key ++ " = " ++ payloadText payload
  | .reports value => value.map (·.line)
  | .done =>
    match command with
    | .set .. => ["OK"]
    | .setArray .. => ["OK"]
    | .compact => active.toList.map fun index => "active page: " ++ toString index
    | _ => []

end FlashRing
