/-
  Reading a number from text: decimal or hexadecimal digits, an optional fraction and exponent,
  and the words for infinity and not-a-number.
-/
import Parlance.Number.Binary

namespace Parlance.Number

/-- The double nearest to `± n / d`: the quotient is taken to more bits than a mantissa holds, and
a last bit records whether a remainder was left. -/
def ofQuotient (negative : Bool) (n d : Nat) : Float :=
  let s := (d.log2 + 66) - n.log2
  let q := n * Nat.pow 2 s / d
  let sticky := if n * Nat.pow 2 s % d == 0 then 0 else 1
  ofParts negative (2 * q + sticky) (-(s : Int) - 1)

/-- The double nearest to `n · 10 ^ k`. -/
def ofDecimal (negative : Bool) (n : Nat) (k : Int) : Float :=
  if 0 ≤ k then ofParts negative (n * Nat.pow 10 k.toNat) 0
  else ofQuotient negative n (Nat.pow 10 (-k).toNat)

def hexValue? (c : Char) : Option Nat :=
  let n := c.toNat
  if 48 ≤ n && n ≤ 57 then some (n - 48)
  else if 97 ≤ n && n ≤ 102 then some (n - 87)
  else if 65 ≤ n && n ≤ 70 then some (n - 55)
  else none

def digitValue? (hex : Bool) (c : Char) : Option Nat :=
  if hex then hexValue? c else if c.isDigit then some (c.toNat - 48) else none

/-- Digits read so far: their value, how many stood after the point, whether there were any. -/
structure Mantissa where
  value : Nat := 0
  places : Nat := 0
  sawPoint : Bool := false
  sawDigit : Bool := false

/-- Reads digits, separators and at most one point; the second component is what follows. -/
def Mantissa.scan (hex : Bool) : Mantissa → List Char → Mantissa × List Char
  | m, [] => (m, [])
  | m, c :: cs =>
    if c == '_' then scan hex m cs
    else if c == '.' then
      if m.sawPoint then (m, c :: cs) else scan hex { m with sawPoint := true } cs
    else
      match digitValue? hex c with
      | some d =>
        scan hex { m with
          value := m.value * (if hex then 16 else 10) + d
          places := if m.sawPoint then m.places + 1 else m.places
          sawDigit := true } cs
      | none => (m, c :: cs)

/-- Exponent digits with separators. From ten thousand on further digits change nothing. -/
def scanExponent : Nat → List Char → Nat × List Char
  | n, [] => (n, [])
  | n, c :: cs =>
    if c == '_' then scanExponent n cs
    else if c.isDigit then scanExponent (if n < 10000 then n * 10 + (c.toNat - 48) else n) cs
    else (n, c :: cs)

def splitSign : List Char → Bool × List Char
  | '-' :: cs => (true, cs)
  | '+' :: cs => (false, cs)
  | cs => (false, cs)

def exponent? (cs : List Char) : Option Int :=
  let (negative, cs) := splitSign cs
  match cs with
  | c :: _ =>
    if c.isDigit then
      match scanExponent 0 cs with
      | (n, []) => some (if negative then -(n : Int) else n)
      | _ => none
    else none
  | [] => none

inductive Last where
  | start | digit | separator | other
  deriving DecidableEq

def separatorsFrom (hex : Bool) : Last → List Char → Bool
  | last, [] => last != .separator
  | last, c :: cs =>
    if (digitValue? hex c).isSome then separatorsFrom hex .digit cs
    else if c == '_' then last == .digit && separatorsFrom hex .separator cs
    else last != .separator && separatorsFrom hex .other cs

/-- A separator stands between two digits, or between the mark of a base and a digit. -/
def separatorsOk (cs : List Char) : Bool :=
  match (splitSign cs).2 with
  | '0' :: x :: rest =>
    if x.toLower == 'x' then separatorsFrom true .digit rest
    else if x.toLower == 'b' || x.toLower == 'o' then separatorsFrom false .digit rest
    else separatorsFrom false .start ('0' :: x :: rest)
  | rest => separatorsFrom false .start rest

def word? (cs : List Char) : Option Float :=
  let (negative, body) := splitSign cs
  let name := String.ofList (body.map Char.toLower)
  if name == "inf" || name == "infinity" then some (infinity negative)
  else if name == "nan" && body.length == cs.length then some notANumber
  else none

/-- A number in digits. -/
def numeral? (cs : List Char) : Option Float :=
  let (negative, body) := splitSign cs
  let (hex, body) :=
    match body with
    | '0' :: x :: c :: rest => if x.toLower == 'x' then (true, c :: rest) else (false, body)
    | _ => (false, body)
  let (m, rest) := Mantissa.scan hex {} body
  if !m.sawDigit then none
  else
    let exponent : Option Int :=
      match rest with
      | [] => if hex then none else some 0
      | c :: tail => if c.toLower == (if hex then 'p' else 'e') then exponent? tail else none
    match exponent with
    | none => none
    | some k =>
      if cs.contains '_' && !separatorsOk cs then none
      else if hex then some (ofParts negative m.value (k - 4 * m.places))
      else some (ofDecimal negative m.value (k - m.places))

def readChars? (cs : List Char) : Option Float :=
  match word? cs with
  | some x => some x
  | none =>
    match numeral? cs with
    | some x =>
      match shape x with
      | .infinite _ => none
      | _ => some x
    | none => none

/-- The double nearest to what the text says. A text that says no number, or one beyond the finite
doubles, is refused. -/
def read? (s : String) : Option Float := readChars? s.toList

end Parlance.Number
