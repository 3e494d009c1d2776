import CatalogLint.Lint.Style

/-!
# Colours in the terminal

With colours on, text stands between the sequence that switches its style on and the one that
switches all styles off. Where the text itself switches all styles off, its own style is switched
on again.
-/
namespace CatalogLint

namespace Terminal

/-- The codes of a style, as the terminal wants them. -/
def codes : Style → List Char
  | .path => ['1', ';', '3', '7']
  | .info => ['3', '6']
  | .warning => ['3', '3']
  | .error => ['1', ';', '9', '1']
  | .margin => ['3', '6']
  | .highlight => ['1', ';', '4', '1', ';', '9', '3']

def switchOn (s : Style) : List Char :=
  '\x1b' :: '[' :: codes s ++ ['m']

def switchOff : List Char :=
  ['\x1b', '[', '0', 'm']

/-- Switches a style on again after every place where the text switches it off. -/
def reopen (on : List Char) : List Char → List Char
  | [] => []
  | '\x1b' :: '[' :: '0' :: 'm' :: cs => switchOff ++ on ++ reopen on cs
  | c :: cs => c :: reopen on cs

def paint (color : Bool) (s : Style) (text : List Char) : List Char :=
  if color then switchOn s ++ reopen (switchOn s) text ++ switchOff else text

end Terminal

instance : Painting where
  paint := Terminal.paint

end CatalogLint
