/-!
# Styles of text

Every kind of emphasised text has a style. How text of a style looks in colour is taken from
outside: whatever is displayed depends on a `Painting`.
-/
namespace CatalogLint

inductive Style where
  | path | info | warning | error | margin | highlight
  deriving DecidableEq, Repr

class Painting where
  /-- Paints text, with colours or without. -/
  paint : Bool → Style → List Char → List Char

def Style.paintString [Painting] (color : Bool) (s : Style) (text : String) : String :=
  String.ofList (Painting.paint color s text.toList)

end CatalogLint
