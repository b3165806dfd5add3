/-
  Decimal digits of a positive binary number `m · 2 ^ e`.
-/
import Parlance.Number.Binary

namespace Parlance.Number

/-- `0.d₁d₂… · 10 ^ point` without trailing zeros; zero has no digits. -/
structure Decimal where
  digits : List Char
  point : Int
  deriving Repr, DecidableEq

/-- A quotient, exactly. -/
structure Ratio where
  num : Nat
  den : Nat

namespace Ratio

def ofParts (m : Nat) (e : Int) : Ratio :=
  if 0 ≤ e then ⟨m * Nat.pow 2 e.toNat, 1⟩ else ⟨m, Nat.pow 2 (-e).toNat⟩

def scale (r : Ratio) (k : Int) : Ratio :=
  if 0 ≤ k then ⟨r.num * Nat.pow 10 k.toNat, r.den⟩ else ⟨r.num, r.den * Nat.pow 10 (-k).toNat⟩

def atLeastPow (r : Ratio) (k : Int) : Bool :=
  let s := r.scale (-k)
  s.den ≤ s.num

end Ratio

/-- The `k` with `10 ^ k ≤ m · 2 ^ e < 10 ^ (k + 1)`. The estimate from the binary logarithm is off
by one at most, on either side. -/
def decimalExponent (m : Nat) (e : Int) : Int :=
  let r := Ratio.ofParts m e
  let guess := ((m.log2 + e) * 30103).fdiv 100000
  if r.atLeastPow (guess + 1) then guess + 1
  else if r.atLeastPow guess then guess
  else guess - 1

def dropTrailingZeros (ds : List Char) : List Char :=
  (ds.reverse.dropWhile (· == '0')).reverse

def Decimal.ofDigits (n : Nat) (k : Int) : Decimal :=
  ⟨dropTrailingZeros (Nat.toDigits 10 n), k + 1⟩

/-- A given count of significant digits, the exact value rounded half to even. -/
def rounded (count m : Nat) (e : Int) : Decimal :=
  if m == 0 then ⟨[], 0⟩
  else
    let k := decimalExponent m e
    let s := (Ratio.ofParts m e).scale (count - 1 - k)
    let n := roundDiv s.num s.den
    if n == Nat.pow 10 count then .ofDigits 1 (k + 1) else .ofDigits n k

/-- Whether the decimal `n · 10 ^ s` reads back as the double `m · 2 ^ e`: it lies between the
midpoints to the neighbours, which themselves count for an even mantissa. -/
def readsBack (m : Nat) (e : Int) (n : Nat) (s : Int) : Bool :=
  let low : Nat × Int :=
    if m == Nat.pow 2 52 && minExponent < e then (4 * m - 1, e - 2) else (2 * m - 1, e - 1)
  let high : Nat × Int := (2 * m + 1, e - 1)
  let d := (Ratio.mk n 1).scale s
  let below (a b : Ratio) : Bool :=
    if m % 2 == 0 then a.num * b.den ≤ b.num * a.den else a.num * b.den < b.num * a.den
  below (Ratio.ofParts low.1 low.2) d && below d (Ratio.ofParts high.1 high.2)

/-- The best decimal with `count` digits that reads back, of the two around the value: the nearer,
or the even one half way between. -/
def nearestReadBack? (count m : Nat) (e k : Int) : Option Decimal :=
  let s := k - (count - 1)
  let r := (Ratio.ofParts m e).scale (-s)
  let down := r.num / r.den
  let up := down + 1
  let downOk := readsBack m e down s
  let upOk := readsBack m e up s
  let left := 2 * (r.num % r.den)
  let nearerDown := left < r.den || left == r.den && down % 2 == 0
  let pick (n : Nat) : Decimal :=
    if n == Nat.pow 10 count then .ofDigits 1 (k + 1) else .ofDigits n k
  if downOk && (nearerDown || !upOk) then some (pick down)
  else if upOk then some (pick up)
  else none

/-- The fewest digits that read back as the same double. Seventeen digits tell any two doubles
apart, so one of the counts has a hit. -/
def shortest (m : Nat) (e : Int) : Decimal :=
  if m == 0 then ⟨[], 0⟩
  else
    let k := decimalExponent m e
    ((List.range 17).findSome? fun i => nearestReadBack? (i + 1) m e k).getD (rounded 17 m e)

def zeros (n : Nat) : List Char := List.replicate n '0'

def Decimal.positional (d : Decimal) : List Char :=
  let whole :=
    if 0 < d.point then
      d.digits.take d.point.toNat ++ zeros (d.point.toNat - d.digits.length)
    else ['0']
  let fraction :=
    if 0 < d.point then d.digits.drop d.point.toNat
    else if d.digits.isEmpty then [] else zeros (-d.point).toNat ++ d.digits
  if fraction.isEmpty then whole else whole ++ '.' :: fraction

/-- One digit before the point and a signed exponent of two digits at least. -/
def Decimal.scientific (d : Decimal) : List Char :=
  let exponent := d.point - 1
  let mark := if exponent < 0 then '-' else '+'
  let size := Nat.toDigits 10 exponent.natAbs
  let size := if size.length < 2 then '0' :: size else size
  match d.digits with
  | [] => '0' :: 'e' :: mark :: size
  | [c] => c :: 'e' :: mark :: size
  | c :: cs => c :: '.' :: cs ++ 'e' :: mark :: size

/-- Positional notation, but scientific below `10 ^ -4` and from `10 ^ 6` on. -/
def Decimal.general (d : Decimal) : List Char :=
  let exponent := if d.digits.isEmpty then 0 else d.point - 1
  if exponent < -4 || 6 ≤ exponent then d.scientific else d.positional

end Parlance.Number
