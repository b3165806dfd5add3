/-
  Floats in their shortest form.
-/
import Mathlib
import Parlance.Cbor

namespace Parlance

namespace Number

variable {x : Float} {minus : Bool} {m m' : Nat} {e e' : Int}

/-! ## The parts of a double -/

theorem ofField_toBits (x : Float) : ofField (isNegative x) (x.toBits.toNat % Nat.pow 2 63) = x := by
  have hlt : x.toBits.toNat < Nat.pow 2 64 := x.toBits.toNat_lt
  have hbits :
    (if isNegative x then Nat.pow 2 63 + x.toBits.toNat % Nat.pow 2 63 else
    x.toBits.toNat % Nat.pow 2 63)
      = x.toBits.toNat := by
    simp only [Nat.pow_eq, Nat.reducePow] at hlt ⊢
    simp only [isNegative, Nat.pow_eq, Nat.reducePow, beq_iff_eq]
    split <;> omega
  rw [ofField, hbits, UInt64.ofNat_toNat, Float.ofBits_toBits]

/-- The parts of a finite double are in range, and give its bits. -/
structure Parts (x : Float) (minus : Bool) (m : Nat) (e : Int) : Prop where
  minus_eq : minus = isNegative x
  lt : m < Nat.pow 2 53
  least_le : minExponent ≤ e
  le_top : e ≤ 971
  normal : e = minExponent ∨ Nat.pow 2 52 ≤ m
  small : m < Nat.pow 2 52 → x.toBits.toNat % Nat.pow 2 63 = m
  large : Nat.pow 2 52 ≤ m → x.toBits.toNat % Nat.pow 2 63 = (e + 1075).toNat * Nat.pow 2
    52 + (m - Nat.pow 2 52)

theorem parts_of_shape (h : shape x = .finite minus m e) : Parts x minus m e := by
  have hlt : x.toBits.toNat < Nat.pow 2 64 := x.toBits.toNat_lt
  have h52 : Nat.pow 2 52 = 4503599627370496 := rfl
  have h53 : Nat.pow 2 53 = 9007199254740992 := rfl
  have h63 : Nat.pow 2 63 = 9223372036854775808 := rfl
  unfold shape at h
  dsimp only at h
  split at h
  · split at h <;> cases h
  · rename_i htop
    simp only [Nat.pow_eq, Nat.reducePow, beq_iff_eq] at hlt htop h
    split at h <;> cases h
    · exact ⟨rfl, by omega, Int.le_refl _, by decide, Or.inl rfl, fun _ => by rw [h63]; omega,
        fun _ => by omega⟩
    · exact ⟨rfl, by omega, by unfold minExponent; omega, by omega, Or.inr (by omega),
        fun _ => by omega,
        fun _ => by rw [h63, h52]; omega⟩

theorem infinity_of_shape (h : shape x = .infinite minus) : infinity minus = x := by
  have hlt : x.toBits.toNat < Nat.pow 2 64 := x.toBits.toNat_lt
  unfold shape at h
  dsimp only at h
  split at h
  · rename_i htop
    split at h
    · rename_i hfraction
      cases h
      have hmagnitude : x.toBits.toNat % Nat.pow 2 63 = 2047 * Nat.pow 2 52 := by
        simp only [Nat.pow_eq, Nat.reducePow, beq_iff_eq] at hlt htop hfraction ⊢
        omega
      have hx := ofField_toBits x
      rw [hmagnitude] at hx
      exact hx
    · cases h
  · split at h <;> cases h

open Float.Model in
theorem notANumber_of_shape (h : shape x = .nan) : notANumber = x := by
  have hnan := x.toModel.valid.eq_packedNaN
  rw [UnpackedFloat.unpackExponent_def, UnpackedFloat.unpackMantissa_def] at hnan
  unfold shape at h
  dsimp only at h
  split at h
  · rename_i htop
    split at h
    · cases h
    · rename_i hfraction
      simp only [Nat.pow_eq, Nat.reducePow, beq_iff_eq] at htop hfraction
      have hbits : x.toBits = UInt64.ofNat (2047 * Nat.pow 2 52 + Nat.pow 2 51) := by
        refine UInt64.toBitVec_inj.1 ((hnan ?_ ?_).trans (by decide))
        · refine BitVec.eq_of_toNat_eq ?_
          rw [BitVec.extractLsb'_toNat, UInt64.toNat_toBitVec, Nat.shiftRight_eq_div_pow]
          exact htop
        · intro hzero
          have := congrArg BitVec.toNat hzero
          rw [BitVec.extractLsb'_toNat, UInt64.toNat_toBitVec, Nat.shiftRight_zero] at this
          exact hfraction this
      rw [← Float.ofBits_toBits x, hbits]
      rfl
  · split at h <;> cases h

/-! ## The double nearest to a number -/

/-- `m · 2 ^ e` and `m' · 2 ^ e'` are the same number. -/
def Same (m : Nat) (e : Int) (m' : Nat) (e' : Int) : Prop :=
  (e ≤ e' ∧ m = m' * Nat.pow 2 (e' - e).toNat) ∨ (e' ≤ e ∧ m' = m * Nat.pow 2 (e - e').toNat)

theorem log2_mul_pow {n : Nat} (hn : n ≠ 0) (k : Nat) : (n * Nat.pow 2 k).log2 = n.log2 + k := by
  induction k with
  | zero => simp
  | succ k ih =>
    have hne : n * Nat.pow 2 k ≠ 0 := Nat.mul_ne_zero hn (Nat.pos_iff_ne_zero.1 (Nat.two_pow_pos k))
    rw [show n * Nat.pow 2 (k + 1) =
      2 * (n * Nat.pow 2 k) by simp only [Nat.pow_eq, Nat.pow_succ]; ring, Nat.log2_two_mul hne, ih,
      Nat.add_assoc]

theorem Same.ne_zero (h : Same m e m' e') (hm : m ≠ 0) : m' ≠ 0 := by
  rintro rfl
  rcases h with ⟨-, h⟩ | ⟨-, h⟩
  · exact hm (by rw [h, Nat.zero_mul])
  · exact Nat.mul_ne_zero hm (Nat.pos_iff_ne_zero.1 (Nat.two_pow_pos _)) h.symm

theorem Same.log2_add (h : Same m e m' e') (hm : m ≠ 0) : (m.log2 : Int) + e = m'.log2 + e' := by
  have hm' := h.ne_zero hm
  rcases h with ⟨hle, h⟩ | ⟨hle, h⟩
  · rw [h, log2_mul_pow hm']
    omega
  · rw [h, log2_mul_pow hm]
    omega

theorem roundDiv_mul (q : Nat) {d : Nat} (hd : 0 < d) : roundDiv (q * d) d = q := by
  simp [roundDiv, Nat.mul_div_cancel _ hd, hd]

theorem ofParts_eq (hx : Parts x minus m e) (h : Same m e m' e') : ofParts minus m' e' = x := by
  have hbits := ofField_toBits x
  rw [← hx.minus_eq] at hbits
  have h52 : Nat.pow 2 52 = 4503599627370496 := rfl
  have h53 : Nat.pow 2 53 = 9007199254740992 := rfl
  by_cases hm : m = 0
  · have hm' : m' = 0 := by
      rcases h with ⟨-, h⟩ | ⟨-, h⟩
      · exact (Nat.mul_eq_zero.1 (h.symm.trans hm)).resolve_right
          (Nat.pos_iff_ne_zero.1 (Nat.two_pow_pos _))
      · rw [h, hm, Nat.zero_mul]
    rw [hx.small (by omega), hm] at hbits
    simpa [ofParts, hm'] using hbits
  · have hlt := hx.lt
    have hleast := hx.least_le
    have htop := hx.le_top
    have hlog := h.log2_add hm
    -- the exponent of the last place is the one that the double has
    have hunit : max ((m'.log2 : Int) + 1 + e' - 53) minExponent = e := by
      have hle : m.log2 < 53 := (Nat.log2_lt hm).2 hlt
      rcases hx.normal with rfl | hnormal
      · omega
      · have : m.log2 = 52 := (Nat.log2_eq_iff hm).2 ⟨hnormal, hlt⟩
        omega
    have hscaled :
        (if e ≤ e' then m' * Nat.pow 2 (e' - e).toNat else roundDiv m' (Nat.pow 2 (e - e').toNat)) =
        m := by
      rcases h with ⟨hle, h⟩ | ⟨hle, h⟩
      · rw [if_pos hle, ← h]
      · split
        · have : e' = e := by omega
          subst this
          simpa using h
        · rw [h]
          exact roundDiv_mul m (Nat.two_pow_pos _)
    have hcarry : (m == Nat.pow 2 53) = false := by
      simp only [beq_eq_false_iff_ne, ne_eq]
      omega
    unfold ofParts
    rw [if_neg (by simpa using h.ne_zero hm)]
    dsimp only
    rw [hunit, hscaled, hcarry]
    simp only [Bool.false_eq_true, if_false]
    rw [if_neg (by omega)]
    split
    · rename_i hsmall
      rw [← hx.small hsmall, hbits]
    · rename_i hlarge
      rw [← hx.large (Nat.not_lt.1 hlarge), hbits]

end Number

namespace Cbor

open Number

namespace FloatFormat

variable {f : FloatFormat} {x : Float} {minus : Bool} {m n : Nat} {e : Int}

/-- The smallest number follows from the precision and the largest power of two. -/
structure Proper (f : FloatFormat) : Prop where
  precise : 1 ≤ f.precision
  top : 1 ≤ f.top
  least : f.least = 2 - f.precision - f.top

/-- How many bits there are below the sign, as a power of two. -/
def range (f : FloatFormat) : Nat := Nat.pow 2 (f.precision - 1) * (2 * f.top + 2).toNat

/-- The bits are those of a number with the same value, which has the last place that the format
gives it. -/
def Packs (f : FloatFormat) (m : Nat) (e : Int) (n : Nat) : Prop :=
  ∃ (s : Nat) (unit : Int), Same m e s unit ∧ f.least ≤ unit ∧
    n = s + (unit - f.least).toNat * Nat.pow 2 (f.precision - 1) ∧
    (unit = f.least ∨ Nat.pow 2 (f.precision - 1) ≤ s) ∧ s < 2 * Nat.pow 2 (f.precision - 1) ∧
    unit ≤ f.top - (f.precision - 1)

theorem packs_of_bits? (hf : f.Proper) (hm : m ≠ 0) (h : f.bits? m e = some n) :
    f.Packs m e n := by
  have hprecise := hf.precise
  have hleast := hf.least
  have htop := hf.top
  unfold bits? at h
  rw [if_neg (by simpa using hm)] at h
  dsimp only at h
  generalize hunit : max ((m.log2 : Int) + e - (f.precision - 1)) f.least = unit at h
  -- what a number with this last place looks like
  have key : ∀ s : Nat, Same m e s unit → ¬ f.top < m.log2 + e →
      n = s + (unit - f.least).toNat * Nat.pow 2 (f.precision - 1) → f.Packs m e n := by
    intro s hsame hle hn
    have hlog := hsame.log2_add hm
    have hs := hsame.ne_zero hm
    refine ⟨s, unit, hsame, by omega, hn, ?_, ?_, by omega⟩
    · by_cases heq : unit = f.least
      · exact Or.inl heq
      · have hlog' : s.log2 = f.precision - 1 := by omega
        exact Or.inr (hlog' ▸ Nat.log2_self_le hs)
    · have hlog' : s.log2 < f.precision := by omega
      have := (Nat.log2_lt hs).1 hlog'
      rw [show 2 * Nat.pow 2 (f.precision - 1) = 2 ^ f.precision by
        rw [Nat.pow_eq, ← Nat.pow_succ', Nat.succ_eq_add_one, Nat.sub_add_cancel hprecise]]
      exact this
  split at h
  · cases h
  · rename_i hle
    split at h
    · rename_i hue
      exact key _ (Or.inr ⟨hue, rfl⟩) hle (Option.some.inj h).symm
    · rename_i hue
      split at h
      · rename_i hmod
        have hdvd : Nat.pow 2 (unit - e).toNat ∣ m := Nat.dvd_of_mod_eq_zero (by simpa using hmod)
        exact key _ (Or.inl ⟨by omega, (Nat.div_mul_cancel hdvd).symm⟩) hle (Option.some.inj h).symm
      · cases h

theorem value_eq {fraction exponent : Nat} (hfraction : fraction < Nat.pow 2 (f.precision - 1))
    (hexponent : exponent < (2 * f.top + 2).toNat) (minus : Bool) :
    f.value (fraction + exponent * Nat.pow 2 (f.precision - 1) + if minus then f.range else 0) =
      if exponent + 1 = (2 * f.top + 2).toNat then
        if fraction = 0 then Number.infinity minus else Number.notANumber
      else if exponent = 0 then Number.ofParts minus fraction f.least
      else Number.ofParts minus (Nat.pow 2 (f.precision - 1) + fraction) (f.least + exponent - 1) := by
  have hpos : 0 < Nat.pow 2 (f.precision - 1) := Nat.two_pow_pos _
  have hsum : fraction + exponent * Nat.pow 2 (f.precision - 1) + (if minus then f.range else 0) =
      fraction + Nat.pow 2 (f.precision - 1) *
        (exponent + (2 * f.top + 2).toNat * if minus then 1 else 0) := by
    cases minus <;> simp only [range, if_true, if_false, Bool.false_eq_true] <;> ring
  have hmod (k : Nat) : (fraction + Nat.pow 2 (f.precision - 1) * k) %
      Nat.pow 2 (f.precision - 1) = fraction := by
    rw [Nat.add_mul_mod_self_left, Nat.mod_eq_of_lt hfraction]
  have hdiv (k : Nat) : (fraction + Nat.pow 2 (f.precision - 1) * k) /
      Nat.pow 2 (f.precision - 1) = k := by
    rw [Nat.add_mul_div_left _ _ hpos, Nat.div_eq_of_lt hfraction, Nat.zero_add]
  have hsign :
      ((exponent + (2 * f.top + 2).toNat * if minus then 1 else 0) / (2 * f.top + 2).toNat == 1) =
      minus := by
    rw [Nat.add_mul_div_left _ _ (by omega), Nat.div_eq_of_lt hexponent]
    cases minus <;> rfl
  unfold value
  simp only [hsum, hmod, hdiv, hsign, Nat.add_mul_mod_self_left,
    Nat.mod_eq_of_lt hexponent, beq_iff_eq]

theorem value_small (hf : f.Proper) {s : Nat} (hs : s < Nat.pow 2 (f.precision - 1)) (minus : Bool) :
    f.value (s + if minus then f.range else 0) = Number.ofParts minus s f.least := by
  have htop := hf.top
  have hv := value_eq hs (show 0 < (2 * f.top + 2).toNat by omega) minus
  rw [Nat.zero_mul, Nat.add_zero] at hv
  exact hv.trans (by rw [if_neg (by omega), if_pos rfl])

theorem value_large (hf : f.Proper) {s : Nat} {unit : Int} (hle : Nat.pow 2 (f.precision - 1) ≤ s)
    (hlt : s < 2 * Nat.pow 2 (f.precision - 1)) (hleast : f.least ≤ unit)
    (hunit : unit ≤ f.top - (f.precision - 1)) (minus : Bool) :
    f.value (s + (unit - f.least).toNat * Nat.pow 2 (f.precision - 1) + if minus then f.range else 0) =
      Number.ofParts minus s unit := by
  have hprecise := hf.precise
  have htop := hf.top
  have hf' := hf.least
  have hv := value_eq (show s - Nat.pow 2 (f.precision - 1) < Nat.pow 2 (f.precision - 1) by omega)
    (show (unit - f.least).toNat + 1 < (2 * f.top + 2).toNat by omega) minus
  have hsum : s - Nat.pow 2 (f.precision - 1) +
      ((unit - f.least).toNat + 1) * Nat.pow 2 (f.precision - 1) =
      s + (unit - f.least).toNat * Nat.pow 2 (f.precision - 1) := by
    rw [Nat.succ_mul]
    omega
  rw [hsum] at hv
  refine hv.trans ?_
  rw [if_neg (by omega), if_neg (by omega), Nat.add_sub_cancel' hle]
  congr 1
  omega

/-- The bits of a number in a format stand for that number. -/
theorem value_bits? (hf : f.Proper) (hx : Parts x minus m e) (h : f.bits? m e = some n) :
    n < f.range ∧ f.value (n + if minus then f.range else 0) = x := by
  have hpos : 0 < Nat.pow 2 (f.precision - 1) := Nat.two_pow_pos _
  have hprecise := hf.precise
  have htop := hf.top
  have hleast := hf.least
  by_cases hm : m = 0
  · have hn : n = 0 := by simpa [bits?, hm] using h.symm
    have hsame : Same m e 0 f.least := by simp [Same, hm, Int.le_total]
    rw [hn]
    exact ⟨Nat.mul_pos hpos (by omega), (value_small hf hpos minus).trans (ofParts_eq hx hsame)⟩
  · obtain ⟨s, unit, hsame, hle, hn, hnormal, hs, hunit⟩ := packs_of_bits? hf hm h
    rw [← ofParts_eq hx hsame, hn]
    by_cases hsmall : s < Nat.pow 2 (f.precision - 1)
    · obtain rfl : unit = f.least := hnormal.resolve_right (Nat.not_le.2 hsmall)
      rw [Int.sub_self, Int.toNat_zero, Nat.zero_mul, Nat.add_zero]
      refine ⟨Nat.lt_of_lt_of_le hsmall (Nat.le_mul_of_pos_right _ (by omega)),
        value_small hf hsmall minus⟩
    · refine ⟨?_, value_large hf (Nat.not_lt.1 hsmall) hs hle hunit minus⟩
      calc s + (unit - f.least).toNat * Nat.pow 2 (f.precision - 1)
        _ < Nat.pow 2 (f.precision - 1) * ((unit - f.least).toNat + 2) := by
          rw [Nat.mul_add, Nat.mul_comm _ (unit - f.least).toNat]
          omega
        _ ≤ f.range := Nat.mul_le_mul_left _ (by omega)

theorem proper_half : half.Proper := ⟨by decide, by decide, rfl⟩

theorem proper_single : single.Proper := ⟨by decide, by decide, rfl⟩

end FloatFormat

end Cbor

end Parlance
