/-
  Sets of code points given by closed ranges in increasing order.
-/

namespace Parlance.Text

/-- Closed ranges of code points, in increasing order and apart from each other. -/
abbrev Ranges := Array (Nat × Nat)

namespace Ranges

/-- The ranges from `start` on, by the lengths of the gaps before them and of their own, in turn. -/
def pairs : (start : Nat) → (lengths : List Nat) → List (Nat × Nat)
  | start, gap :: length :: lengths =>
    (start + gap, start + gap + length - 1) :: pairs (start + gap + length) lengths
  | _, _ => []

def ofLengths (start : Nat) (lengths : List Nat) : Ranges := (pairs start lengths).toArray

/-- Bisection between the indices `lo` and `hi`; each round halves the gap, so `fuel` rounds
serve `2 ^ fuel` ranges. -/
def search (rs : Ranges) (n : Nat) : (fuel lo hi : Nat) → Bool
  | 0, _, _ => false
  | fuel + 1, lo, hi =>
    if lo < hi then
      let mid := (lo + hi) / 2
      match rs[mid]? with
      | none => false
      | some (first, last) =>
        if n < first then search rs n fuel lo mid
        else if last < n then search rs n fuel (mid + 1) hi
        else true
    else false

def contains (rs : Ranges) (n : Nat) : Bool :=
  search rs n (rs.size.log2 + 1) 0 rs.size

end Ranges

end Parlance.Text
