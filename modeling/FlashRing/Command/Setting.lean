import FlashRing.Config
import FlashRing.Error
import FlashRing.Text.Number

/-!
The settings that stand in front of a command: where the image is and how its pages are laid out.
-/

namespace FlashRing

/-- A setting of the command line. -/
inductive Setting where
  | image
  | pages
  | pageWords
  | devicePages
  | basePage
deriving DecidableEq

namespace Setting

/-- The name after two dashes. -/
def name : Setting → String
  | .image => "image"
  | .pages => "pages"
  | .pageWords => "page-words"
  | .devicePages => "device-pages"
  | .basePage => "base-page"

/-- The letter after one dash. -/
def letter : Setting → Char
  | .image => 'i'
  | .pages => 'n'
  | .pageWords => 'w'
  | .devicePages => 'd'
  | .basePage => 'b'

def all : List Setting :=
  [.image, .pages, .pageWords, .devicePages, .basePage]

/-- The way a setting is written in messages. -/
def place : Setting → String
  | .image => "--image <IMAGE>"
  | .pages => "--pages <PAGES>"
  | .pageWords => "--page-words <PAGE_WORDS>"
  | .devicePages => "--device-pages <DEVICE_PAGES>"
  | .basePage => "--base-page <BASE_PAGE>"

end Setting

/-- The settings given so far. -/
structure Settings where
  image : Option String := none
  pages : Option Nat := none
  pageWords : Option Nat := none
  devicePages : Option Nat := none
  basePage : Option Nat := none
deriving DecidableEq

namespace Settings

def isGiven (settings : Settings) : Setting → Bool
  | .image => settings.image.isSome
  | .pages => settings.pages.isSome
  | .pageWords => settings.pageWords.isSome
  | .devicePages => settings.devicePages.isSome
  | .basePage => settings.basePage.isSome

/-- Takes the text given for a setting. -/
def give (settings : Settings) (setting : Setting) (text : String) :
    Except Number.Fault Settings :=
  match setting with
  | .image => return { settings with image := some text }
  | .pages => return { settings with pages := some (← Number.parseCount text) }
  | .pageWords => return { settings with pageWords := some (← Number.parseCount text) }
  | .devicePages => return { settings with devicePages := some (← Number.parseCount text) }
  | .basePage => return { settings with basePage := some (← Number.parseCount text) }

/-- The configuration that the settings describe. An image of which no size is given is just large
enough for the ring, unless no page number is. -/
def config (settings : Settings) : Except ConfigFault Config := do
  let defaults : Config := {}
  let ringPages := settings.pages.getD defaults.ringPages
  let basePage := settings.basePage.getD defaults.basePage
  let devicePages ← match settings.devicePages with
    | some pages => pure pages
    | none =>
      let pages := basePage + max ringPages 2
      if Number.maxCount < pages then throw (.pageRangeOverflow basePage ringPages) else pure pages
  return { defaults with
    ringPages := ringPages
    basePage := basePage
    imagePath := settings.image.getD defaults.imagePath
    pageWords := settings.pageWords.getD defaults.pageWords
    devicePages := devicePages }

end Settings

end FlashRing
