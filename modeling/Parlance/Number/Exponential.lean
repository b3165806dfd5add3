/-
  Logarithms and exponentials of doubles, by series on a reduced argument.
-/
import Parlance.Number.Binary

namespace Parlance.Number

def scaled (x : Float) (k : Int) : Float :=
  match shape x with
  | .finite negative m e => ofParts negative m (e + k)
  | _ => x

/-- A significand in `[1/2, 1)` and its exponent. -/
def significand (x : Float) : Float × Int :=
  match shape x with
  | .finite negative m e =>
    if m == 0 then (x, 0)
    else
      let size : Int := m.log2 + 1
      (ofParts negative m (-size), size + e)
  | _ => (x, 0)

def withSign (negative : Bool) (m : Nat) : Int := if negative then -(m : Int) else m

/-- `x · y + z` with one rounding. The sum is exact in the smaller of the two units. -/
def fused (x y z : Float) : Float :=
  match shape x, shape y, shape z with
  | .finite s m e, .finite t n f, .finite u k g =>
    let unit := min (e + f) g
    let product := withSign (s != t) (m * n * Nat.pow 2 (e + f - unit).toNat)
    let sum := product + withSign u (k * Nat.pow 2 (g - unit).toNat)
    ofParts (sum < 0) sum.natAbs unit
  | _, _, _ => x * y + z

def horner (x : Float) (sum : Float) (coefficients : List Float) : Float :=
  coefficients.foldl (fun sum c => fused sum x c) sum

def nearestInteger (x : Float) : Int :=
  match shape x with
  | .finite negative m e =>
    withSign negative (if 0 ≤ e then m * Nat.pow 2 e.toNat else roundDiv m (Nat.pow 2 (-e).toNat))
  | _ => 0

/-! ## Logarithm -/

/-- `log (1 + f) - f + f ^ 2 / 2`, divided by `s = f / (2 + f)` and less `f ^ 2 / 2`, as a series in
the even powers of `s`. -/
def logarithmSeries (s : Float) : Float :=
  let s2 := s * s
  let s4 := s2 * s2
  let odd := s2 * (6.666666666666735130e-01 + s4 * (2.857142874366239149e-01 +
    s4 * (1.818357216161805012e-01 + s4 * 1.479819860511658591e-01)))
  let even := s4 * (3.999999999940941908e-01 + s4 * (2.222219843214978396e-01 +
    s4 * 1.531383769920937332e-01))
  odd + even

/-- The natural logarithm of a positive finite double. With `x = 2 ^ k · (1 + f)`, where `1 + f`
lies around one, it is `k` times the logarithm of two, which is added in two parts, and that of `1 +
f`. -/
def logarithm (x : Float) : Float :=
  let (r, k) := significand x
  let (r, k) := if r < 0.70710678118654752440 then (2 * r, k - 1) else (r, k)
  let k := ofInt k
  let f := r - 1
  let s := f / (2 + f)
  let half := 0.5 * f * f
  let correction := s * (half + logarithmSeries s) + k * 1.90821492927058770002e-10
  k * 6.93147180369123816490e-01 - ((half - correction) - f)

/-! ## Exponential -/

def inverseFactorials : List Float :=
  [2.4801587301587301587e-5, 1.9841269841269841270e-4, 1.3888888888888888889e-3,
    8.3333333333333333333e-3, 4.1666666666666666667e-2, 1.6666666666666666667e-1, 0.5, 1]

/-- `e ^ (2 t) - 1` from `x = e ^ t - 1`. -/
def doubled (x : Float) : Float := x * (x + 2)

/-- The power of `e`. With `x = n · log 2 + 16 t` the series is taken at the small `t`, doubled four
times, and scaled by `2 ^ n`. -/
def exponential (x : Float) : Float :=
  let n := nearestInteger (x * 1.4426950408889634073599246810018920)
  let back := -ofInt n
  let rest := fused back 0.69314718055966295651160180568695068359375 x
  let rest := fused back 0.28235290563031577122588448175013436025525412068e-12 rest
  let t := rest * 0.0625
  let small := t * horner t 0 inverseFactorials
  let before := doubled (doubled (doubled small))
  scaled (fused before (before + 2) 1) n

end Parlance.Number
