/-
  Operations on doubles beyond the four that the processor has.
-/
import Parlance.Number.Exponential

namespace Parlance.Number

/-- What is left of `x` after taking away whole multiples of `y`, with the sign of `x`. -/
def remainder (x y : Float) : Float :=
  match shape x, shape y with
  | .finite negative m e, .finite _ n f =>
    if n == 0 then notANumber
    else
      let unit := min e f
      ofParts negative (m * Nat.pow 2 (e - unit).toNat % (n * Nat.pow 2 (f - unit).toNat)) unit
  | .finite .., .infinite _ => x
  | _, _ => notANumber

/-- The smaller of two doubles, with `-0` below `0`. -/
def least (x y : Float) : Float :=
  if x == infinity true || y == infinity true then infinity true
  else if isNaN x || isNaN y then notANumber
  else if x == 0 && y == 0 then if isNegative x then x else y
  else if x < y then x else y

/-- The larger of two doubles, with `-0` below `0`. -/
def greatest (x y : Float) : Float :=
  if x == infinity false || y == infinity false then infinity false
  else if isNaN x || isNaN y then notANumber
  else if x == 0 && y == 0 then if isNegative x then y else x
  else if x > y then x else y

def wholePart (x : Float) : Float :=
  match shape x with
  | .finite negative m e => if 0 ≤ e then x else ofParts negative (m / Nat.pow 2 (-e).toNat) 0
  | _ => x

def isOddInteger (x : Float) : Bool :=
  match shape x with
  | .finite _ m e =>
    if 0 ≤ e then e == 0 && m % 2 == 1
    else m % Nat.pow 2 (-e).toNat == 0 && m / Nat.pow 2 (-e).toNat % 2 == 1
  | _ => false

/-- Multiplies `a · 2 ^ ae` by `(x · 2 ^ xe) ^ n`, bit by bit of `n`. Beyond `2 ^ 4096` either way
the result has left the doubles and the loop stops. -/
def powerLoop : (fuel n : Nat) → (x : Float) → (xe : Int) → (a : Float) → (ae : Int) → Float × Int
  | 0, _, _, _, a, ae => (a, ae)
  | fuel + 1, n, x, xe, a, ae =>
    if n == 0 then (a, ae)
    else if xe < -4096 || 4096 < xe then (a, ae + xe)
    else
      let (a, ae) := if n % 2 == 1 then (a * x, ae + xe) else (a, ae)
      let x := x * x
      let xe := 2 * xe
      let (x, xe) := if x < 0.5 then (x + x, xe - 1) else (x, xe)
      powerLoop fuel (n / 2) x xe a ae

/-- `x ^ y` for finite `x ≠ 0` and finite `y`. -/
def powerFinite (x y : Float) : Float :=
  let size := y.abs
  let whole := wholePart size
  let part := size - whole
  if part != 0 && x < 0 then notANumber
  else if whole >= 9223372036854775808.0 then
    if x == -1 then 1
    else if (x.abs < 1) == (y > 0) then 0
    else infinity false
  else
    let (part, whole) := if part > 0.5 then (part - 1, whole + 1) else (part, whole)
    let a := if part != 0 then exponential (part * logarithm x) else 1
    let (s, e) := significand x
    let n := ((truncated? whole).getD 0).toNat
    let (a, ae) := powerLoop 64 n s e a 0
    if y < 0 then scaled (1 / a) (-ae) else scaled a ae

/-- Repeated squaring on the integer part of the exponent. -/
def power (x y : Float) : Float :=
  if y == 0 || x == 1 then 1
  else if y == 1 then x
  else if isNaN x || isNaN y then notANumber
  else if x == 0 then
    if y < 0 then infinity (isNegative x && isOddInteger y)
    else if isNegative x && isOddInteger y then x else 0
  else if y == infinity false || y == infinity true then
    if x == -1 then 1
    else if (x.abs < 1) == (y > 0) then 0
    else infinity false
  else if x == infinity true then
    -- as for the reciprocal, a negative zero
    if y < 0 then if isOddInteger y then ofField true 0 else 0
    else infinity (isOddInteger y)
  else if x == infinity false then if y < 0 then 0 else x
  else if y == 0.5 then x.sqrt
  else if y == -0.5 then 1 / x.sqrt
  else powerFinite x y

end Parlance.Number
