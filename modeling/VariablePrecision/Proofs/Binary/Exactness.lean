/-
  VariablePrecision.Proofs.Binary.Exactness

  Taking a value apart and putting it together again loses nothing.

  A value is its significand times a power of two, and the product of the two is the value
  again (`significand_rebuilds`).  Rounding to a quantum does the same with the bits of the
  significand that are kept.  Its quantum can be the first power of two that is too large, so
  it multiplies twice, and each of the two products is exact or too large for the format
  (`ExactProducts`).  The first one is too large only if the whole is.

  With this the primitive is exact for every quantum (`roundToQuantum_exact`): one that is
  finer than the unit of the format divides all values and changes none.
-/

import VariablePrecision.Proofs.Binary.FixedPoint

namespace VariablePrecision.Binary

variable {f : Format} {x : Binary f} {n k : Nat} {q e : ℤ}

/-! ## The significand -/

theorem abs_toRat_eq_significand (x : Binary f) :
    |x.toRat| = x.significand.1 * 2 ^ x.significand.2 := by
  obtain ⟨j, hexp, -, hunits, -⟩ := significand_spec x
  rw [abs_toRat, hunits, hexp, Nat.cast_mul, mul_assoc, Target.two_pow_mul_unit]

/-- The implicit bit is there if the exponent field is not empty. -/
theorem two_pow_le_significand_iff :
    2 ^ f.mantissaBits ≤ x.significand.1 ↔ x.biasedExponent ≠ 0 := by
  have hlt : x.mantissa < 2 ^ f.mantissaBits := Nat.mod_lt _ (Nat.two_pow_pos _)
  unfold significand
  split
  · next hb => exact iff_of_false (Nat.not_le.2 hlt) fun h => h hb
  · next hb => exact iff_of_true (Nat.le_add_right _ _) hb

/-- The exponent of a significand leaves room for a full mantissa. -/
theorem significand_exponent_le (hx : x.isFinite) :
    x.significand.2 ≤ (f.bias : ℤ) - f.mantissaBits := by
  obtain ⟨j, hexp, hj, -, -⟩ := significand_spec x
  have hbiased := biasedExponent_le hx
  have hunit := f.unitExponent_add_one
  have hbias := f.bias_pos
  omega

/-- The product of the significand and its power of two is the value. -/
theorem ofNat_mul_exp2_significand (hx : x.isFinite) :
    (ofNat f x.significand.1 * exp2 f x.significand.2).withSign x.negative = x := by
  obtain ⟨j, hexp, -, hunits, hlt⟩ := significand_spec x
  have hle := significand_exponent_le hx
  rw [ofNat_mul_exp2 hlt (show (j : ℤ) = _ by omega) (by omega), withSign_nearest, ← hunits,
    nearest_absUnits hx]

/-- The exponent of a normal value is the one place of its leading bit. -/
theorem binade_iff_of_normal (hx : x.category = .normal) (k : ℤ) :
    2 ^ k ≤ |x.toRat| ∧ |x.toRat| < 2 ^ (k + 1) ↔ k = x.exponent := by
  obtain ⟨hlow, hupp⟩ := abs_toRat_of_normal hx
  constructor
  · rintro ⟨hlow', hupp'⟩
    -- each of the two binades starts before the other one ends
    have hlt := (zpow_lt_zpow_iff_right₀ (by norm_num)).1 (hlow'.trans_lt hupp)
    have hlt' := (zpow_lt_zpow_iff_right₀ (by norm_num)).1 (hlow.trans_lt hupp')
    omega
  · rintro rfl
    exact ⟨hlow, hupp⟩

/-- A finite value is its significand times a power of two, exactly, and the native product of the
    two with the sign of the value is the value.  The significand has its implicit bit for the
    normal values, and for these the exponent is the place of the leading bit. -/
theorem significand_rebuilds (hx : x.isFinite) :
    |x.toRat| = x.significand.1 * 2 ^ x.significand.2 ∧
      x.significand.1 < 2 ^ (f.mantissaBits + 1) ∧
      (2 ^ f.mantissaBits ≤ x.significand.1 ↔ x.category = .normal) ∧
      (ofNat f x.significand.1 * exp2 f x.significand.2).withSign x.negative = x ∧
      (x.category = .normal → ∀ k : ℤ,
        2 ^ k ≤ |x.toRat| ∧ |x.toRat| < 2 ^ (k + 1) ↔ k = x.exponent) := by
  obtain ⟨-, -, -, -, hlt⟩ := significand_spec x
  refine ⟨abs_toRat_eq_significand x, hlt, ?_, ofNat_mul_exp2_significand hx,
    binade_iff_of_normal⟩
  rw [two_pow_le_significand_iff, category_eq_normal_iff, and_iff_right hx]

/-- Three of the least values of binary32, with a sign, and the binade of 1.5. -/
theorem significand_rebuilds_subnormal :
    (ofBits .binary32 0x80000003).isFinite ∧
      (ofBits .binary32 0x80000003).significand = (3, -149) ∧
      |(ofBits .binary32 0x80000003).toRat| = (3 : Nat) * 2 ^ (-149 : ℤ) ∧
      (ofNat .binary32 3 * exp2 .binary32 (-149)).withSign true = ofBits .binary32 0x80000003 ∧
      (ofBits .binary32 0x3fc00000).category = .normal ∧
      ∀ k : ℤ, 2 ^ k ≤ |(ofBits .binary32 0x3fc00000).toRat| ∧
        |(ofBits .binary32 0x3fc00000).toRat| < 2 ^ (k + 1) ↔ k = 0 := by
  have hfinite : (ofBits .binary32 0x80000003).isFinite := by decide
  have hsignificand : (ofBits .binary32 0x80000003).significand = (3, -149) := by decide
  have hnormal : (ofBits .binary32 0x3fc00000).category = .normal := by decide
  have hexponent : (ofBits .binary32 0x3fc00000).exponent = 0 := by decide
  obtain ⟨hsize, -, -, hproduct, -⟩ := significand_rebuilds hfinite
  obtain ⟨-, -, -, -, hbinade⟩ :=
    significand_rebuilds (x := ofBits .binary32 0x3fc00000) (by decide)
  rw [hsignificand] at hsize hproduct
  rw [hexponent] at hbinade
  exact ⟨hfinite, hsignificand, hsize, hproduct, hnormal, hbinade hnormal⟩

/-! ## Products -/

/-- A value that is not negative, from its units. -/
theorem toRat_of_absUnits (hsign : x.negative = false) (hk : (k : ℤ) = e + f.unitExponent)
    (hunits : x.absUnits = n * 2 ^ k) : x.toRat = n * 2 ^ e := by
  rw [toRat_eq_scaled, hsign, scaled, if_neg Bool.false_ne_true, hunits, mul_two_pow_mul_unit n hk]

/-- A short integer times `2 ^ k` units is a value, unless it is too large. -/
theorem represents_short (hn : n < 2 ^ (f.mantissaBits + 1)) (hk : (k : ℤ) = e + f.unitExponent) :
    (nearest f false (n * 2 ^ k) 1).Represents (n * 2 ^ e) := by
  have hrep := represents_nearest (Grid.mem_mul_two_pow (Nat.zero_le k) hn) false
  rwa [scaled, if_neg Bool.false_ne_true, mul_two_pow_mul_unit n hk] at hrep

/-- The integer `n`, the power `2 ^ e` and the power `2 ^ e'` are values, and multiplied from the
    left nothing is rounded: each product is exact or too large for the format, and the first one
    is too large only if the whole is. -/
structure ExactProducts (f : Format) (n : Nat) (e e' : ℤ) : Prop where
  integer : (ofNat f n).isFinite ∧ (ofNat f n).toRat = n
  left : (exp2 f e).isFinite ∧ (exp2 f e).toRat = 2 ^ e
  right : (exp2 f e').isFinite ∧ (exp2 f e').toRat = 2 ^ e'
  first : (ofNat f n * exp2 f e).Represents (n * 2 ^ e)
  whole : (ofNat f n * exp2 f e * exp2 f e').Represents (n * 2 ^ (e + e'))
  not_early : (ofNat f n * exp2 f e).isFinite = false →
    2 ^ ((f.bias : ℤ) + 1) ≤ (n : ℚ) * 2 ^ (e + e')

theorem toRat_exp2 (hk : (k : ℤ) = e + f.unitExponent) (he : e ≤ f.bias) :
    (exp2 f e).isFinite ∧ (exp2 f e).toRat = 2 ^ e := by
  obtain ⟨hfinite, hunits⟩ := exp2_eq_exact hk he
  refine ⟨hfinite, ?_⟩
  rw [toRat_of_absUnits (n := 1) (negative_exp2 e) hk (by rw [hunits, Nat.one_mul]), Nat.cast_one,
    one_mul]

theorem toRat_ofNat (hn : n < 2 ^ (f.mantissaBits + 1)) :
    (ofNat f n).isFinite ∧ (ofNat f n).toRat = n := by
  obtain ⟨hfinite, hunits⟩ := ofNat_eq_exact hn
  refine ⟨hfinite, ?_⟩
  rw [toRat_of_absUnits (e := 0) rfl (by omega) hunits, zpow_zero, mul_one]

/-- A power of two in two factors, the first one as large as the format allows. -/
theorem exactProducts (hn : n ≤ 2 ^ f.mantissaBits) (hk : (k : ℤ) = q + f.unitExponent)
    (hq : q ≤ 2 * f.bias) : ExactProducts f n (min q f.bias) (q - min q f.bias) := by
  have hunit := f.unitExponent_add_one
  have hshort : n < 2 ^ (f.mantissaBits + 1) :=
    Nat.lt_of_le_of_lt hn (Nat.pow_lt_pow_right Nat.one_lt_two (by omega))
  obtain ⟨k₁, hk₁⟩ : ∃ k₁ : Nat, (k₁ : ℤ) = min q f.bias + f.unitExponent :=
    ⟨(min q f.bias + f.unitExponent).toNat, by omega⟩
  obtain ⟨k₂, hk₂⟩ : ∃ k₂ : Nat, (k₂ : ℤ) = q - min q f.bias + f.unitExponent :=
    ⟨(q - min q f.bias + f.unitExponent).toNat, by omega⟩
  have hfirst : (ofNat f n * exp2 f (min q f.bias)).Represents (n * 2 ^ min q (f.bias : ℤ)) := by
    rw [ofNat_mul_exp2 hshort hk₁ (by omega)]
    exact represents_short hshort hk₁
  have hwhole := represents_short hshort hk
  rw [← ofNat_mul_exp2_mul_exp2 hn hk hq] at hwhole
  refine ⟨toRat_ofNat hshort, toRat_exp2 hk₁ (by omega), toRat_exp2 hk₂ (by omega), hfirst,
    ?_, fun hinfinite => ?_⟩
  · rwa [add_sub_cancel]
  · rw [add_sub_cancel]
    -- the first product is no larger than the whole
    have hle : (n : ℚ) * 2 ^ min q (f.bias : ℤ) ≤ n * 2 ^ q := by
      gcongr
      · norm_num
      · omega
    by_contra hlt
    have hfinite := (hfirst.finite (by rw [abs_of_nonneg (by positivity)]; linarith)).1
    rw [hfinite] at hinfinite
    contradiction

/-! ## The rounding primitive -/

/-- What is kept of a significand, counted in multiples of the quantum. -/
def kept (x : Binary f) (q : ℤ) : Nat :=
  nearestEven x.significand.1 (2 ^ (q - x.significand.2).toNat)

/-- Rounding to the quantum `2 ^ q` puts a result together: some bits of the significand are below
    the quantum, not all of them are below its half, and something is kept. -/
structure Cuts (x : Binary f) (q : ℤ) : Prop where
  below : x.significand.2 < q
  near : q ≤ x.significand.2 + f.mantissaBits + 1
  kept_ne_zero : x.kept q ≠ 0

theorem Cuts.roundToQuantum_eq (h : x.Cuts q) :
    x.roundToQuantum q =
      (ofNat f (x.kept q) * exp2 f (min q f.bias) * exp2 f (q - min q f.bias)).withSign
        x.negative := by
  have hzero : x.significand.1 ≠ 0 := by
    intro hzero
    apply h.kept_ne_zero
    rw [kept, hzero, nearestEven_zero (Nat.two_pow_pos _)]
  have hbelow := h.below
  have hnear := h.near
  unfold roundToQuantum
  dsimp only
  rw [if_neg (by omega), if_neg (by omega)]
  exact if_neg h.kept_ne_zero

theorem Cuts.exactProducts (hx : x.isFinite) (h : x.Cuts q) :
    ExactProducts f (x.kept q) (min q f.bias) (q - min q f.bias) := by
  obtain ⟨j, hexp, -, -, hlt⟩ := significand_spec x
  have hle := significand_exponent_le hx
  have hbelow := h.below
  have hnear := h.near
  have hbias := f.bias_pos
  exact Binary.exactProducts (k := (q + f.unitExponent).toNat)
    (nearestEven_le_of_cut hlt (by omega)) (by omega) (by omega)

/-- A quantum that is finer than the unit divides every value and changes none. -/
theorem roundToQuantum_of_fine (hq : q + f.unitExponent < 0) :
    x.roundToQuantum q = x ∧ ∃ n : Nat, |x.toRat| = n * 2 ^ q := by
  obtain ⟨j, hexp, -, -, -⟩ := significand_spec x
  refine ⟨?_, x.significand.1 * 2 ^ (x.significand.2 - q).toNat, ?_⟩
  · unfold roundToQuantum
    dsimp only
    rw [if_pos (.inl (by omega))]
  · rw [abs_toRat_eq_significand, Nat.cast_mul, Target.cast_two_pow, mul_assoc,
      ← zpow_add₀ (by norm_num)]
    congr 2
    omega

/-- Multiples of the quantum are kept. -/
theorem roundToQuantum_of_multiple (hx : x.isFinite) {i : ℤ} (h : |x.toRat| = i * 2 ^ q) :
    x.roundToQuantum q = x := by
  rcases lt_or_ge (q + f.unitExponent) 0 with hfine | hcoarse
  · exact (roundToQuantum_of_fine hfine).1
  obtain ⟨k, hk⟩ : ∃ k : Nat, (k : ℤ) = q + f.unitExponent := ⟨_, Int.toNat_of_nonneg hcoarse⟩
  have hunit : (2 : ℚ) ^ (-(f.unitExponent : ℤ)) ≠ 0 := (zpow_pos (by norm_num) _).ne'
  -- counted in units the multiple is one of `2 ^ k`
  have hunits : (x.absUnits : ℤ) = i * (2 ^ k : Nat) := by
    rw [abs_toRat, show q = (k : ℤ) - f.unitExponent by omega, ← Target.two_pow_mul_unit,
      ← mul_assoc, mul_left_inj' hunit] at h
    exact_mod_cast h
  have hdvd : 2 ^ k ∣ x.absUnits := Int.natCast_dvd_natCast.1 ⟨i, by rw [hunits, Int.mul_comm]⟩
  exact roundToQuantum_of_dvd hx hk hdvd

theorem abs_toRat_lt (hx : x.isFinite) : |x.toRat| < 2 ^ ((f.bias : ℤ) + 1) := by
  have hunit : (0 : ℚ) < 2 ^ (-(f.unitExponent : ℤ)) := by positivity
  rw [abs_toRat, ← unitBound_mul_unit, mul_lt_mul_iff_left₀ hunit, Nat.cast_lt]
  exact isFinite_iff.1 hx

theorem eq_infinity (hx : x.isInfinite) : x = infinity f x.negative :=
  eq_of_absUnits rfl (by
    rw [absUnits_of_isInfinite hx, absUnits_of_isInfinite isInfinite_infinity])

/-- What rounding to a quantum gives, from the multiple of the quantum that is nearest to the
    size. -/
theorem roundToQuantum_nearest (hx : x.isFinite) (q : ℤ) :
    ∃ n : Nat, IsNearestMultiple q |x.toRat| n ∧
      (2 ^ ((f.bias : ℤ) + 1) ≤ (n : ℚ) * 2 ^ q →
        x.roundToQuantum q = infinity f x.negative) ∧
      ((n : ℚ) * 2 ^ q < 2 ^ ((f.bias : ℤ) + 1) →
        (x.roundToQuantum q).isFinite ∧ |(x.roundToQuantum q).toRat| = n * 2 ^ q) := by
  rcases lt_or_ge (q + f.unitExponent) 0 with hfine | hcoarse
  · obtain ⟨hkeep, n, hn⟩ := roundToQuantum_of_fine (x := x) hfine
    have hlt := abs_toRat_lt hx
    rw [hkeep]
    exact ⟨n, IsNearestMultiple.of_eq (by exact_mod_cast hn), fun hbig => by linarith,
      fun _ => ⟨hx, hn⟩⟩
  obtain ⟨k, hk⟩ : ∃ k : Nat, (k : ℤ) = q + f.unitExponent := ⟨_, Int.toNat_of_nonneg hcoarse⟩
  have hnearest := isNearestMultiple_units x.absUnits hk
  have hrep := represents_nearest (mem_nearestEven_two_pow x.mem_absUnits k) x.negative
  have hsign := negative_roundToQuantum x q
  rw [← roundToQuantum_eq_nearest hx hk] at hrep
  rw [← abs_toRat] at hnearest
  generalize nearestEven x.absUnits (2 ^ k) = n at *
  have habs : |scaled f x.negative (n * 2 ^ k : Nat)| = n * 2 ^ q := by
    rw [abs_scaled _ (Nat.cast_nonneg _), mul_two_pow_mul_unit n hk]
  refine ⟨n, hnearest, fun hbig => ?_, fun hsmall => ?_⟩
  · rw [eq_infinity (hrep.infinite (by rwa [habs])), hsign]
  · obtain ⟨hfinite, hvalue⟩ := hrep.finite (by rwa [habs])
    exact ⟨hfinite, by rw [hvalue, habs]⟩

/-- The rounding primitive is exact for every quantum.  It keeps the sign, and it keeps multiples of
    the quantum as they are.  From other values it goes to the multiple that is nearest to the size,
    the even one of two, or to the infinity if that is too large for the format.  The product that
    makes the result is never rounded on the way, and it is not infinite before its time. -/
theorem roundToQuantum_exact (hx : x.isFinite) (q : ℤ) :
    (x.roundToQuantum q).negative = x.negative ∧
      (∀ i : ℤ, |x.toRat| = i * 2 ^ q → x.roundToQuantum q = x) ∧
      (∃ n : Nat, IsNearestMultiple q |x.toRat| n ∧
        (2 ^ ((f.bias : ℤ) + 1) ≤ (n : ℚ) * 2 ^ q →
          x.roundToQuantum q = infinity f x.negative) ∧
        ((n : ℚ) * 2 ^ q < 2 ^ ((f.bias : ℤ) + 1) →
          (x.roundToQuantum q).isFinite ∧ |(x.roundToQuantum q).toRat| = n * 2 ^ q)) ∧
      (x.Cuts q →
        x.roundToQuantum q =
          (ofNat f (x.kept q) * exp2 f (min q f.bias) * exp2 f (q - min q f.bias)).withSign
            x.negative ∧
        ExactProducts f (x.kept q) (min q f.bias) (q - min q f.bias)) :=
  ⟨negative_roundToQuantum x q, fun _ => roundToQuantum_of_multiple hx,
    roundToQuantum_nearest hx q, fun h => ⟨h.roundToQuantum_eq, h.exactProducts hx⟩⟩

/-- Three units are half way between one and two multiples of two units and go to the even one, and
    the greatest finite value goes to the first power of two that is too large. -/
theorem roundToQuantum_exact_half_way :
    (ofBits .binary32 0x80000003).roundToQuantum (-148) = ofBits .binary32 0x80000004 ∧
      (∃ n : Nat, IsNearestMultiple (-148) |(ofBits .binary32 0x80000003).toRat| n ∧
        |(ofBits .binary32 0x80000004).toRat| = n * 2 ^ (-148 : ℤ)) ∧
      (ofBits .binary32 0xff7fffff).Cuts 128 ∧
      ExactProducts .binary32 1 127 1 ∧
      (ofBits .binary32 0xff7fffff).roundToQuantum 128 = infinity .binary32 true := by
  have htie : (ofBits .binary32 0x80000003).roundToQuantum (-148) =
      ofBits .binary32 0x80000004 := by decide +kernel
  have hcuts : (ofBits .binary32 0xff7fffff).Cuts 128 :=
    ⟨by decide, by decide, by decide +kernel⟩
  have hkept : (ofBits .binary32 0xff7fffff).kept 128 = 1 := by decide +kernel
  obtain ⟨-, -, ⟨n, hn, hbig, hsmall⟩, -⟩ :=
    roundToQuantum_exact (x := ofBits .binary32 0x80000003) (by decide) (-148)
  obtain ⟨-, -, -, hproduct⟩ :=
    roundToQuantum_exact (x := ofBits .binary32 0xff7fffff) (by decide) 128
  obtain ⟨-, hexact⟩ := hproduct hcuts
  rw [htie] at hbig hsmall
  rw [hkept] at hexact
  refine ⟨htie, ⟨n, hn, ?_⟩, hcuts, hexact, by decide +kernel⟩
  -- the result is not the infinity
  have hnot : ofBits .binary32 0x80000004 ≠ infinity .binary32
      (ofBits .binary32 0x80000003).negative := by decide
  exact (hsmall (lt_of_not_ge fun hle => hnot (hbig hle))).2

end VariablePrecision.Binary
