/-!
Text for terminals and for readers that are none. A terminal is told of emphasis by control
sequences; any other reader gets the text without them and without the other control characters,
except those that lay text out. Main definitions: `Emphasis.mark` is what a terminal is sent, and
`plain` is what another reader gets of it.
-/

namespace FlashRing.Terminal

/-- Why a piece of text is emphasised. -/
inductive Emphasis where
  | failure
  | refused
  | literal
deriving DecidableEq

/-- The control sequences that switch an emphasis on. -/
def Emphasis.opening : Emphasis → String
  | .failure => "\x1b[1m\x1b[31m"
  | .refused => "\x1b[33m"
  | .literal => "\x1b[1m"

/-- The text with an emphasis, which is switched off after it. -/
def Emphasis.mark (emphasis : Emphasis) (text : String) : String :=
  emphasis.opening ++ text ++ "\x1b[0m"

/-- The control characters that lay text out. -/
def isLayout (c : Char) : Bool :=
  c == '\t' || c == '\n' || c == '\x0c' || c == '\r'

/-- The characters that are shown where they stand in text. -/
def isShown (c : Char) : Bool :=
  isLayout c || (' ' ≤ c && c != '\x7f')

/-- How far a control sequence has been read. -/
inductive Progress where
  /-- After the escape character. -/
  | escape
  /-- After the escape character and intermediate characters. -/
  | intermediate
  /-- In a sequence that a character from `@` to `~` ends. -/
  | control
  /-- At the start of a device string. -/
  | device
  /-- In the parameters of a device string. -/
  | deviceParameters
  /-- In the intermediate characters of a device string. -/
  | deviceIntermediate
  /-- In a string that the string terminator ends. -/
  | string
  /-- In a string for the system, which the bell ends. -/
  | systemString
deriving DecidableEq

/-- Where a reader of text stands. -/
inductive Reading where
  | text
  /-- In a control sequence. -/
  | inside (progress : Progress)
  /-- In text that a layout character opened inside a control sequence. The sequence goes on at the
  next character that is not shown, unless a character beyond ASCII came before it. -/
  | between (progress : Progress)
deriving DecidableEq

/-- Whether a character is in a range with both ends included. -/
def isWithin (first last c : Char) : Bool :=
  first ≤ c && c ≤ last

/-- Whether the string terminator, a single byte, is among the bytes of a character. -/
def holdsTerminator (c : Char) : Bool :=
  (String.utf8EncodeChar c).contains 0x9C

namespace Progress

/-- Whether layout characters are shown in spite of the sequence they stand in. -/
def showsLayout : Progress → Bool
  | .escape => true
  | .intermediate => true
  | .control => true
  | _ => false

/-- Where a character of the sequence leads that is neither an escape nor a cancellation. -/
def advance (progress : Progress) (c : Char) : Reading :=
  match progress with
  | .escape =>
    if isWithin ' ' '/' c then .inside .intermediate
    else if c == '[' then .inside .control
    else if c == ']' then .inside .systemString
    else if c == 'P' then .inside .device
    else if c == 'X' || c == '^' || c == '_' then .inside .string
    else if isWithin '0' '~' c then .text
    else .inside .escape
  | .intermediate => if isWithin '0' '~' c then .text else .inside .intermediate
  | .control => if isWithin '@' '~' c then .text else .inside .control
  | .device =>
    if isWithin ' ' '/' c then .inside .deviceIntermediate
    else if isWithin '0' '?' c then .inside .deviceParameters
    else if isWithin '@' '~' c then .inside .string
    else .inside .device
  | .deviceParameters =>
    if isWithin ' ' '/' c then .inside .deviceIntermediate
    else if isWithin '<' '~' c then .inside .string
    else .inside .deviceParameters
  | .deviceIntermediate =>
    if isWithin '0' '~' c then .inside .string else .inside .deviceIntermediate
  | .string => if holdsTerminator c then .text else .inside .string
  | .systemString => if c == '\x07' then .text else .inside .systemString

end Progress

namespace Reading

/-- Whether the next character is shown. -/
def shows (reading : Reading) (c : Char) : Bool :=
  match reading with
  | .inside progress => progress.showsLayout && isLayout c
  | _ => isShown c

/-- Where a character that is shown leads. -/
def afterShown (reading : Reading) (c : Char) : Reading :=
  match reading with
  | .text => .text
  | .inside progress => .between progress
  | .between progress => if c.toNat < 0x80 then .between progress else .text

/-- Where a character that is not shown leads. An escape starts a sequence and a cancellation ends
one, wherever they stand. -/
def afterHidden (reading : Reading) (c : Char) : Reading :=
  if c == '\x1b' then .inside .escape
  else if c == '\x18' || c == '\x1a' then .text
  else
    match reading with
    | .text => .text
    | .inside progress => progress.advance c
    | .between progress => progress.advance c

end Reading

/-- The characters that are shown of a text, read from somewhere on. -/
def plainFrom : Reading → List Char → List Char
  | _, [] => []
  | reading, c :: rest =>
    if reading.shows c then c :: plainFrom (reading.afterShown c) rest
    else plainFrom (reading.afterHidden c) rest

/-- The text as a reader gets it that is no terminal. -/
def plain (text : String) : String :=
  String.ofList (plainFrom .text text.toList)

end FlashRing.Terminal
