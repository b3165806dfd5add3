/-
  Code with its lines and its constants.
-/

namespace Parlance

/-- The bytes of one function, the source line of each byte, and a pool of constants of type `κ`.
The compiler writes chunks over literal constants, the heap holds chunks over values. -/
structure Chunk (κ : Type) where
  code : Array UInt8 := #[]
  lines : Array Int := #[]
  constants : Array κ := #[]
  deriving Repr, Inhabited

def maxConstants : Nat := 256

/-- One step of growth: eight at first, then twice as much. -/
def growCapacity (n : Nat) : Nat := if n < 8 then 8 else 2 * n

def capacity (n : Nat) : Nat :=
  if n == 0 then 0 else if n ≤ 8 then 8 else Nat.pow 2 ((n - 1).log2 + 1)

namespace Chunk

variable {κ : Type}

/-- Appends a byte. -/
def write (c : Chunk κ) (b : UInt8) (line : Int) : Chunk κ :=
  { c with code := c.code.push b, lines := c.lines.push line }

/-- Appends a constant. -/
def addConstant (c : Chunk κ) (k : κ) : Chunk κ :=
  { c with constants := c.constants.push k }

/-- The first constant that `p` is true of, among those that code can name. -/
def firstIndex? (c : Chunk κ) (p : κ → Bool) : Option Nat :=
  (c.constants.findIdx? p).filter (· < maxConstants)

/-- A distance in two bytes. -/
def short? (c : Chunk κ) (offset : Nat) : Option Nat :=
  match c.code[offset]?, c.code[offset + 1]? with
  | some high, some low => some (high.toNat * 256 + low.toNat)
  | _, _ => none

/-- Writes `n` into the two bytes at `offset`, as far as they lie in the code. The flag says whether
both do. -/
def patchShort (c : Chunk κ) (offset n : Nat) : Bool × Chunk κ :=
  let inside := decide (offset + 1 < c.code.size)
  let code := c.code.setIfInBounds offset (UInt8.ofNat (n / 256))
  (inside, { c with code := code.setIfInBounds (offset + 1) (UInt8.ofNat n) })

end Chunk

end Parlance
