import FlashRing.Command.Basic
import FlashRing.Command.Setting
import FlashRing.Text.HexBytes
import FlashRing.Text.Terminal

/-!
The words of the command line: settings, then a command, then its arguments. A value that stands in
a word of its own is only looked at when the next setting or argument comes or when the words end;
a word that fits nowhere is reported before it. The arguments of a command come before a setting
that still waits.
-/

namespace FlashRing

/-- Why the words of the command line make no invocation. -/
inductive UsageFault where
  | unexpected (word : String)
  | unknownCommand (word : String)
  | missingCommand
  | missingArgument
  | missingValue (setting : Setting)
  | repeated (setting : Setting)
  /-- The value that stands at a place is none of those the place admits. -/
  | invalidValue (value place reason : String)
deriving DecidableEq

namespace UsageFault

/-- What is wrong. Words as they were given are emphasised, but not those that a reason repeats. -/
def description : UsageFault → String
  | .unexpected word => "unexpected argument '" ++ Terminal.Emphasis.refused.mark word ++ "' found"
  | .unknownCommand word =>
    "unrecognized subcommand '" ++ Terminal.Emphasis.refused.mark word ++ "'"
  | .missingCommand => "a subcommand is required but one was not provided"
  | .missingArgument => "a required argument was not provided"
  | .missingValue setting =>
    "a value is required for '" ++ Terminal.Emphasis.literal.mark setting.place ++
      "' but none was supplied"
  | .repeated setting =>
    "the argument '" ++ Terminal.Emphasis.literal.mark setting.place ++
      "' cannot be used multiple times"
  | .invalidValue value place reason =>
    "invalid value '" ++ Terminal.Emphasis.refused.mark value ++ "' for '" ++
      Terminal.Emphasis.literal.mark place ++ "': " ++ reason

/-- The whole message, as a terminal takes it. -/
def message (fault : UsageFault) : String :=
  Terminal.Emphasis.failure.mark "error:" ++ " " ++ fault.description ++
    "\n\nFor more information, try '" ++ Terminal.Emphasis.literal.mark "--help" ++ "'."

end UsageFault

/-- What the words of the command line ask for. -/
inductive Invocation where
  | onImage (settings : Settings) (command : Command)
  | help
  | version
deriving DecidableEq

/-- What a word is by its form. -/
inductive WordForm where
  | plain
  /-- The word after which all words are plain. -/
  | escape
  /-- A setting, with the value attached to it if there is one. -/
  | setting (setting : Setting) (attached : Option String)
  | help
  | version
  /-- A word in the form of a setting that is none. -/
  | unknown
deriving DecidableEq

namespace WordForm

/-- The form of a word after two dashes: a name, then possibly an equals sign and a value. -/
def ofLong (body : List Char) : WordForm :=
  let name := String.ofList (body.takeWhile (· != '='))
  let attached := match body.dropWhile (· != '=') with
    | [] => none
    | _ :: value => some (String.ofList value)
  match Setting.all.find? (·.name == name) with
  | some found => .setting found attached
  | none =>
    if attached.isSome then .unknown
    else if name == "help" then .help
    else if name == "version" then .version
    else .unknown

/-- The form of a word after one dash: a letter, then possibly a value, with or without an equals
sign before it. -/
def ofShort (letter : Char) (body : List Char) : WordForm :=
  let attached := match body with
    | [] => none
    | '=' :: value => some (String.ofList value)
    | value => some (String.ofList value)
  match Setting.all.find? (·.letter == letter) with
  | some found => .setting found attached
  | none =>
    if letter == 'h' then .help
    else if letter == 'V' then .version
    else .unknown

def ofWord (word : String) : WordForm :=
  match word.toList with
  | ['-', '-'] => .escape
  | '-' :: '-' :: body => ofLong body
  | '-' :: letter :: body => ofShort letter body
  | _ => .plain

end WordForm

/-- The name of a command. -/
inductive Verb where
  | format
  | get
  | set
  | del
  | getArray
  | setArray
  | delArray
  | list
  | compact
  | eraseCounter
  | inspect
deriving DecidableEq

namespace Verb

def name : Verb → String
  | .format => "format"
  | .get => "get"
  | .set => "set"
  | .del => "del"
  | .getArray => "get-array"
  | .setArray => "set-array"
  | .delArray => "del-array"
  | .list => "list"
  | .compact => "compact"
  | .eraseCounter => "erase-counter"
  | .inspect => "inspect"

def all : List Verb :=
  [.format, .get, .set, .del, .getArray, .setArray, .delArray, .list, .compact, .eraseCounter,
    .inspect]

def ofName? (name : String) : Option Verb :=
  all.find? (·.name == name)

/-- The number of arguments. -/
def arity : Verb → Nat
  | .get => 1
  | .set => 2
  | .del => 1
  | .getArray => 1
  | .setArray => 2
  | .delArray => 1
  | _ => 0

end Verb

/-- Reads a key or a payload. -/
def halfArgument (place word : String) : Except UsageFault UInt16 :=
  match Number.parseHalf word with
  | .ok value => .ok value
  | .error fault =>
    .error (.invalidValue word place ("invalid number '" ++ word ++ "': " ++ fault.text))

/-- Reads a byte string. -/
def bytesArgument (place word : String) : Except UsageFault (List UInt8) :=
  match HexBytes.parse word with
  | .ok value => .ok value
  | .error fault =>
    .error (.invalidValue word place ("invalid hex '" ++ word ++ "': " ++ fault.text))

def keyArgument : String → Except UsageFault UInt16 :=
  halfArgument "<KEY>"

/-- The command of a name and its arguments, which are read in order. -/
def Verb.command : Verb → List String → Except UsageFault Command
  | .format, _ => return .format
  | .get, key :: _ => return .get (← keyArgument key)
  | .set, key :: value :: _ =>
    return .set (← keyArgument key) (← halfArgument "<VALUE>" value)
  | .del, key :: _ => return .del (← keyArgument key)
  | .getArray, key :: _ => return .getArray (← keyArgument key)
  | .setArray, key :: bytes :: _ =>
    return .setArray (← keyArgument key) (← bytesArgument "<BYTES>" bytes)
  | .delArray, key :: _ => return .delArray (← keyArgument key)
  | .list, _ => return .list
  | .compact, _ => return .compact
  | .eraseCounter, _ => return .eraseCounter
  | .inspect, _ => return .inspect
  | _, key :: _ => do
    let _ ← keyArgument key
    throw .missingArgument
  | _, [] => throw .missingArgument

/-- What ended the arguments of a command. -/
inductive ArgumentsEnd where
  | finished
  | help
  | misfit (word : String)
deriving DecidableEq

/-- The arguments of a command with room for `arity` of them, and what ended them. -/
def takeArguments (arity : Nat) (escaped : Bool) : List String → List String × ArgumentsEnd
  | [] => ([], .finished)
  | word :: rest =>
    match if escaped then .plain else WordForm.ofWord word with
    | .escape => takeArguments arity true rest
    | .help => ([], .help)
    | .plain =>
      match arity with
      | 0 => ([], .misfit word)
      | room + 1 =>
        let (arguments, ending) := takeArguments room escaped rest
        (word :: arguments, ending)
    | _ => ([], .misfit word)

/-- Reads the arguments of a command; none if help on it is asked for. Before a word that fits
nowhere the last argument was not looked at yet. -/
def readCommand (verb : Verb) (words : List String) : Except UsageFault (Option Command) :=
  match takeArguments verb.arity false words with
  | (arguments, .finished) => some <$> verb.command arguments
  | (arguments, .help) =>
    match verb.command arguments with
    | .error (.invalidValue value place reason) => throw (.invalidValue value place reason)
    | _ => return none
  | (arguments, .misfit word) =>
    match verb.command arguments.dropLast with
    | .error (.invalidValue value place reason) => throw (.invalidValue value place reason)
    | _ => throw (.unexpected word)

namespace Settings

/-- Takes the text given for a setting, once. -/
def accept (settings : Settings) (setting : Setting) (text : String) :
    Except UsageFault Settings :=
  if settings.isGiven setting then .error (.repeated setting)
  else
    match settings.give setting text with
    | .ok after => .ok after
    | .error fault => .error (.invalidValue text setting.place fault.text)

/-- Takes a setting that waits, with its value or still without. -/
def settle (settings : Settings) : Option (Setting × Option String) → Except UsageFault Settings
  | none => .ok settings
  | some (setting, none) => .error (.missingValue setting)
  | some (setting, some text) => settings.accept setting text

end Settings

/-- The names after `help` have to be those of one command. -/
def readHelp : List String → Except UsageFault Invocation
  | [] => return .help
  | [word] =>
    if word == "help" || (Verb.ofName? word).isSome then return .help
    else throw (.unknownCommand word)
  | _ :: word :: _ => throw (.unknownCommand word)

/-- Reads settings up to the command, then the command. One setting may wait for its value or with
its value. -/
def readSettings (settings : Settings) (waiting : Option (Setting × Option String)) :
    List String → Except UsageFault Invocation
  | [] => do
    let _ ← settings.settle waiting
    throw .missingCommand
  | word :: rest =>
    match WordForm.ofWord word with
    | .setting setting attached => do
      let settled ← settings.settle waiting
      match attached with
      | some text => readSettings (← settled.accept setting text) none rest
      | none => readSettings settled (some (setting, none)) rest
    | .help => do
      let _ ← settings.settle waiting
      return .help
    | .version => do
      let _ ← settings.settle waiting
      return .version
    | .unknown => throw (.unexpected word)
    | .escape =>
      match rest with
      | [] => do
        let _ ← settings.settle waiting
        throw .missingCommand
      | next :: _ => throw (.unexpected next)
    | .plain =>
      match waiting with
      | some (setting, none) => readSettings settings (some (setting, some word)) rest
      | _ =>
        if word == "help" then readHelp rest
        else
          match Verb.ofName? word with
          | none => throw (.unknownCommand word)
          | some verb => do
            match ← readCommand verb rest with
            | none => return .help
            | some command => return .onImage (← settings.settle waiting) command

/-- Reads the words of the command line. -/
def Invocation.ofWords (words : List String) : Except UsageFault Invocation :=
  readSettings {} none words

end FlashRing
