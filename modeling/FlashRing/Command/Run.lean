import FlashRing.Command.Arguments
import FlashRing.Command.Output
import FlashRing.Store.Image

/-!
What the command line does with an image: the words are read, the image is opened, the command is
carried out, and lines and an exit code come back together with what the path leads to afterwards.
-/

namespace FlashRing

/-- What an invocation leaves for its caller. -/
structure Outcome where
  code : Nat
  /-- The lines on standard output. -/
  output : List String
  /-- The messages on standard error, each of one line or more. -/
  complaints : List String
deriving DecidableEq

namespace Outcome

def success (output : List String) : Outcome :=
  { code := 0, output := output, complaints := [] }

/-- The image cannot be used, or the command failed on it. -/
def failure (complaints : List String) : Outcome :=
  { code := 1, output := [], complaints := complaints }

/-- The words make no invocation. The message is for a reader that is no terminal: control
characters of a refused word that are not shown are missing, and a sequence that the reason leaves
open also takes what comes after the reason. -/
def misuse (fault : UsageFault) : Outcome :=
  { code := 2, output := [], complaints := [Terminal.plain fault.message] }

/-- The outcome of a command that failed. Of an array that is not complete the bytes at hand are
printed all the same. -/
def ofError : Error → Outcome
  | .partialArrayRead recovered expected =>
    { code := 0
      output := [HexBytes.encode recovered]
      complaints :=
        ["warning: only " ++ toString recovered.length ++ s!" of {expected} bytes present"] }
  | .unformatted =>
    .failure [Error.unformatted.message, "hint: run `eepromkv format` first"]
  | e => .failure [e.message]

end Outcome

/-- The lines that explain the use of the command line. -/
def usageLines : List String :=
  ["Inspect and edit virtual EEPROM flash images", "",
    "Usage: eepromkv [OPTIONS] <COMMAND>", "", "Commands:"] ++
    Verb.all.map (fun verb => "  " ++ verb.name) ++ ["", "Options:"] ++
    Setting.all.map (fun setting =>
      "  -" ++ String.singleton setting.letter ++ ", " ++ setting.place)

def versionLine : String := "eepromkv 0.1.0"

/-- Carries a command out on the image of a configuration. -/
def Command.runOn (command : Command) (config : Config) (entry : HostEntry) :
    Outcome × HostEntry :=
  match Store.openImage config entry with
  | (.error e, after) => (.failure ["Failed to open image: " ++ e.message], after)
  | (.ok store, _) =>
    match command.perform store with
    | .ok reply after =>
      (.success (command.lines after.active? reply), .file after.device.content)
    | .error e after => (.ofError e, .file after.device.content)

/-- Does what the words of the command line ask for. -/
def Invocation.run (entry : HostEntry) : Invocation → Outcome × HostEntry
  | .help => (.success usageLines, entry)
  | .version => (.success [versionLine], entry)
  | .onImage settings command =>
    match settings.config with
    | .error fault => (.failure [(Error.config fault).message], entry)
    | .ok config => command.runOn config entry

/-- Runs the command line on its words and on what the path of the image leads to. -/
def runWords (words : List String) (entry : HostEntry) : Outcome × HostEntry :=
  match Invocation.ofWords words with
  | .error fault => (.misuse fault, entry)
  | .ok invocation => invocation.run entry

end FlashRing
