/-
  CBOR, a binary format for structured data.
-/
import Parlance.Number.Binary

namespace Parlance

/-- An item of CBOR. -/
inductive Cbor where
  | unsigned (n : Nat)
  /-- The number `-1 - n`. -/
  | negative (n : Nat)
  | bytes (bs : List UInt8)
  | text (s : String)
  /-- A text whose bytes, in one of the pieces it was written in, are not UTF-8. -/
  | garbled
  | array (items : List Cbor)
  | map (entries : List (Cbor × Cbor))
  | tag (n : Nat) (item : Cbor)
  /-- Truth values are 20 and 21, null is 22, undefined is 23. -/
  | simple (n : Nat)
  | float (x : Float)

namespace Cbor

/-- A number as an item. -/
def ofInt (n : Int) : Cbor := if 0 ≤ n then .unsigned n.toNat else .negative (-1 - n).toNat

def ofBool (b : Bool) : Cbor := .simple (if b then 21 else 20)

/-- The lowest `count` bytes of `n`, the highest of them first. -/
def bigEndian : (count n : Nat) → List UInt8
  | 0, _ => []
  | count + 1, n => UInt8.ofNat (n / Nat.pow 256 count) :: bigEndian count n

/-- The head of an item: three bits for what it is and the shortest form of `n`. -/
def head (major n : Nat) : List UInt8 :=
  let first (low : Nat) := UInt8.ofNat (32 * major + low)
  if n < 24 then [first n]
  else if n < Nat.pow 2 8 then first 24 :: bigEndian 1 n
  else if n < Nat.pow 2 16 then first 25 :: bigEndian 2 n
  else if n < Nat.pow 2 32 then first 26 :: bigEndian 4 n
  else first 27 :: bigEndian 8 n

/-! ## Floats -/

/-- A binary float format: bits of precision, the exponent of its smallest number, and the exponent
of its largest power of two. -/
structure FloatFormat where
  precision : Nat
  least : Int
  top : Int

def half : FloatFormat := ⟨11, -24, 15⟩

def single : FloatFormat := ⟨24, -149, 127⟩

namespace FloatFormat

/-- The bits of infinity. -/
def infinity (f : FloatFormat) : Nat := (2 * f.top + 1).toNat * Nat.pow 2 (f.precision - 1)

/-- The number that bits stand for. -/
def value (f : FloatFormat) (n : Nat) : Float :=
  let places := Nat.pow 2 (f.precision - 1)
  let fraction := n % places
  let fields := (2 * f.top + 2).toNat
  let exponent := n / places % fields
  let minus := n / places / fields == 1
  if exponent + 1 == fields then
    if fraction == 0 then Number.infinity minus else Number.notANumber
  else if exponent == 0 then Number.ofParts minus fraction f.least
  else Number.ofParts minus (places + fraction) (f.least + exponent - 1)

/-- The bits of `m · 2 ^ e`, without the sign, if the format has that number. -/
def bits? (f : FloatFormat) (m : Nat) (e : Int) : Option Nat :=
  if m == 0 then some 0
  else
    let size : Int := m.log2
    -- the unit of the last place that the format has for a number of this size
    let unit := max (size + e - (f.precision - 1)) f.least
    if f.top < size + e then none
    else if unit ≤ e then
      let scaled := m * Nat.pow 2 (e - unit).toNat
      some (scaled + (unit - f.least).toNat * Nat.pow 2 (f.precision - 1))
    else
      let shift := Nat.pow 2 (unit - e).toNat
      if m % shift == 0 then
        some (m / shift + (unit - f.least).toNat * Nat.pow 2 (f.precision - 1))
      else none

end FloatFormat

/-- A float in the shortest format that has it. All that are not a number are written alike. -/
def encodeFloat (x : Float) : List UInt8 :=
  match Number.shape x with
  | .nan => [0xf9, 0x7e, 0x00]
  | .infinite minus =>
    0xf9 :: bigEndian 2 (half.infinity + if minus then Nat.pow 2 15 else 0)
  | .finite minus m e =>
    match half.bits? m e with
    | some n => 0xf9 :: bigEndian 2 (n + if minus then Nat.pow 2 15 else 0)
    | none =>
      match single.bits? m e with
      | some n => 0xfa :: bigEndian 4 (n + if minus then Nat.pow 2 31 else 0)
      | none => 0xfb :: bigEndian 8 x.toBits.toNat

/-! ## Items -/

mutual

def write : Cbor → (before : Array UInt8) → Array UInt8
  | .unsigned n, before => before ++ head 0 n
  | .negative n, before => before ++ head 1 n
  | .bytes bs, before => before ++ head 2 bs.length ++ bs
  | .text s, before => before ++ head 3 s.utf8ByteSize ++ s.toUTF8.toList
  | .garbled, before => before ++ head 3 0
  | .array items, before => writeAll items (before ++ head 4 items.length)
  | .map entries, before => writeEntries entries (before ++ head 5 entries.length)
  | .tag n item, before => write item (before ++ head 6 n)
  | .simple n, before => before ++ head 7 n
  | .float x, before => before ++ encodeFloat x

def writeAll : List Cbor → (before : Array UInt8) → Array UInt8
  | [], before => before
  | item :: items, before => writeAll items (write item before)

def writeEntries : List (Cbor × Cbor) → (before : Array UInt8) → Array UInt8
  | [], before => before
  | (key, value) :: entries, before => writeEntries entries (write value (write key before))

end

/-- The canonical bytes of an item: definite lengths, the shortest heads, and floats in the shortest
of half, single and double precision that keeps the value. -/
def encode (item : Cbor) : Array UInt8 := write item #[]

end Cbor

end Parlance
