/-
  Double precision numbers taken apart: a finite double is `± mantissa · 2 ^ exponent`.
-/

namespace Parlance.Number

/-- A double, taken apart. -/
inductive Shape where
  | nan
  | infinite (negative : Bool)
  | finite (negative : Bool) (mantissa : Nat) (exponent : Int)
  deriving Repr, DecidableEq

def minExponent : Int := -1074

/-- The parts of `x`. A normal double has its mantissa in `[2 ^ 52, 2 ^ 53)`. -/
def shape (x : Float) : Shape :=
  let bits := x.toBits.toNat
  let negative := bits / Nat.pow 2 63 == 1
  let field : Nat := bits / Nat.pow 2 52 % Nat.pow 2 11
  let fraction : Nat := bits % Nat.pow 2 52
  if field == 2047 then
    if fraction == 0 then .infinite negative else .nan
  else if field == 0 then .finite negative fraction minExponent
  else .finite negative (Nat.pow 2 52 + fraction) ((field : Int) - 1075)

def isNaN (x : Float) : Bool := shape x == .nan

def isNegative (x : Float) : Bool := x.toBits.toNat / Nat.pow 2 63 == 1

/-- `n / d` rounded to the nearest integer, a half to the even one. -/
def roundDiv (n d : Nat) : Nat :=
  let q := n / d
  let r := n % d
  if 2 * r < d then q else if d < 2 * r then q + 1 else if q % 2 == 0 then q else q + 1

def ofField (negative : Bool) (magnitude : Nat) : Float :=
  Float.ofBits (UInt64.ofNat (if negative then Nat.pow 2 63 + magnitude else magnitude))

def infinity (negative : Bool) : Float := ofField negative (2047 * Nat.pow 2 52)

def notANumber : Float := ofField false (2047 * Nat.pow 2 52 + Nat.pow 2 51)

/-- The double nearest to `± m · 2 ^ e`, ties to the even mantissa, overflow to infinity. -/
def ofParts (negative : Bool) (m : Nat) (e : Int) : Float :=
  if m == 0 then ofField negative 0
  else
    let q := max (m.log2 + 1 + e - 53) minExponent
    let m' := if q ≤ e then m * Nat.pow 2 (e - q).toNat else roundDiv m (Nat.pow 2 (q - e).toNat)
    -- rounding up may carry into the next power of two
    let (m', q) := if m' == Nat.pow 2 53 then (Nat.pow 2 52, q + 1) else (m', q)
    if 971 < q then infinity negative
    else if m' < Nat.pow 2 52 then ofField negative m'
    else ofField negative ((q + 1075).toNat * Nat.pow 2 52 + (m' - Nat.pow 2 52))

/-- The whole part, if there is one. -/
def truncated? (x : Float) : Option Int :=
  match shape x with
  | .finite negative m e =>
    let n : Nat := if 0 ≤ e then m * Nat.pow 2 e.toNat else m / Nat.pow 2 (-e).toNat
    some (if negative then -(n : Int) else n)
  | _ => none

/-- The double nearest to a number. -/
def ofInt (n : Int) : Float := ofParts (n < 0) n.natAbs 0

/-- Words lie below it. -/
def wordLimit : Int := 9223372036854775808

/-- A whole number as a word of 64 bits with a sign, which wraps around at its limits. -/
def wrapWord (n : Int) : Int := n.bmod 18446744073709551616

/-- Whether `x` has no fractional part and fits in 64 bits with a sign. -/
def isWord (x : Float) : Bool :=
  match shape x with
  | .finite _ m e =>
    (0 ≤ e || m % Nat.pow 2 (-e).toNat == 0) &&
      match truncated? x with
      | some n => -wordLimit ≤ n && n < wordLimit
      | none => false
  | _ => false

/-- The integer part as a signed 64-bit word; what does not fit becomes the least word. -/
def toWord (x : Float) : Int :=
  match truncated? x with
  | some n => if -wordLimit ≤ n && n < wordLimit then n else -wordLimit
  | none => -wordLimit

end Parlance.Number
