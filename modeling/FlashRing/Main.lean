import FlashRing.Command.Run

/-!
The command line as a program: reads the image, runs the words and writes back what is left.
-/

namespace FlashRing

/-- What a path leads to. A directory can be opened but not read. -/
def readEntry (path : String) : IO HostEntry := do
  try
    let bytes ← IO.FS.readBinFile path
    return .file bytes.data
  catch
    | .noFileOrDirectory .. => return .missing
    | _ => return .directory

/-- Brings the path to the state it should be in; false if its directory does not exist. -/
def writeEntry (path : String) (before after : HostEntry) : IO Bool := do
  match after.content? with
  | none => return true
  | some content =>
    if before.content? = some content then return true
    else
      try
        IO.FS.writeBinFile path ⟨content⟩
        return true
      catch _ => return false

/-- The path of the image that the words name. -/
def imagePath (words : List String) : String :=
  match Invocation.ofWords words with
  | .ok (.onImage settings _) => settings.image.getD ({} : Config).imagePath
  | _ => ({} : Config).imagePath

def printLines (stream : IO.FS.Stream) (lines : List String) : IO Unit :=
  lines.forM fun line => stream.putStr (line ++ "\n")

end FlashRing

open FlashRing in
def main (args : List String) : IO UInt32 := do
  let path := imagePath args
  let before ← readEntry path
  let (outcome, after) := runWords args before
  let written ← writeEntry path before after
  let shown := if written then outcome else (runWords args .unreachable).1
  printLines (← IO.getStdout) shown.output
  printLines (← IO.getStderr) shown.complaints
  return UInt32.ofNat shown.code
