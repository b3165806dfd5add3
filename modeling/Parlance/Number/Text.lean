/-
  The text of a number.
-/
import Parlance.Number.Decimal

namespace Parlance.Number

def signed (negative : Bool) (cs : List Char) : String :=
  String.ofList (if negative then '-' :: cs else cs)

/-- What scripts print, six significant digits. -/
def display (x : Float) : String :=
  match shape x with
  | .nan => "nan"
  | .infinite negative => signed negative ['i', 'n', 'f']
  | .finite negative m e => signed negative (rounded 6 m e).general

/-- The fewest digits that read back, used where a setting is quoted. -/
def precise (x : Float) : String :=
  match shape x with
  | .nan => "NaN"
  | .infinite negative => if negative then "-Inf" else "+Inf"
  | .finite negative m e => signed negative (shortest m e).general

end Parlance.Number
