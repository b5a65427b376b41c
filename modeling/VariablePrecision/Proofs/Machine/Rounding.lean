/-
  VariablePrecision.Proofs.Machine.Rounding

  Rounding on machine words.

  Here the rounding of a value is written once more, from the fields of its encoding to
  the value that fits a target, with every sum, difference and shift on a word of the
  machine.  `Machine.clamp_eq` says that on valid targets none of them overflows and
  that the result is the same.

  The bounds behind it are small: an exponent is at most 1024 from zero, a precision at
  most 52, so every quantum that a rounding asks for lies within 4096 of zero.
-/

import VariablePrecision.Binary.Clamp
import VariablePrecision.Proofs.Binary.Quantum
import VariablePrecision.Proofs.Machine.Word
import VariablePrecision.Proofs.Target.Grid

namespace VariablePrecision.Machine

open Binary (zero infinity)

variable {f : Format} {t : Target}

/-! ## Computations -/

/-- The greatest exponent of a target. -/
def emax (t : Target) : Option Int := do
  let power ← i32 (← shiftLeft 32 1 (← u32 ((t.range : Int) - 1)))
  i32 (power - 1)

/-- The least exponent of the normal values of a target. -/
def emin (t : Target) : Option Int := do i32 (1 - (← emax t))

/-- The exponent field of an encoding. -/
def exponentField (x : Binary f) : Option Int := do
  i32 (← shiftRight 64 (x.toBits &&& f.exponentMask) f.mantissaBits)

/-- The exponent field without its bias. -/
def exponent (x : Binary f) : Option Int := do i32 ((← exponentField x) - f.bias)

/-- The significand with the exponent of its last bit. -/
def significand (x : Binary f) : Option (Nat × Int) := do
  let biased ← exponentField x
  let mantissa := x.toBits &&& f.mantissaMask
  let width ← i32 f.mantissaBits
  if biased = 0 then return (mantissa, ← i32 ((← i32 (1 - f.bias)) - width))
  else
    return (mantissa ||| (← shiftLeft 64 1 f.mantissaBits), ← i32 ((← i32 (biased - f.bias)) - width))

/-- A power of two. -/
def exp2 (f : Format) (e : Int) : Option (Binary f) := do
  let biased ← i32 (e + f.bias)
  let width ← i32 f.mantissaBits
  if (← i32 ((← i32 (← shiftLeft 32 1 f.exponentBits)) - 1)) ≤ biased then
    return .ofBits f f.exponentMask
  else if 1 ≤ biased then return .ofBits f (← shiftLeft 64 (← u64 biased) f.mantissaBits)
  else if (← i32 (-width)) < biased then
    return .ofBits f (← shiftLeft 64 1 (← i32 ((← i32 (width - 1)) + biased)))
  else return .ofBits f 0

/-- The significand in units of a quantum `2 ^ shift`, to nearest even. -/
def keep (m shift : Nat) : Option Nat := do
  let half ← shiftLeft 64 1 (← u32 ((shift : Int) - 1))
  let rest := m &&& (← u64 (((← shiftLeft 64 1 shift) : Nat) - (1 : Int)))
  let kept ← shiftRight 64 m shift
  if half < rest ∨ (rest = half ∧ kept % 2 = 1) then u64 ((kept : Int) + 1) else return kept

/-- The value rounded to a multiple of `2 ^ quantum`. -/
def roundToQuantum (x : Binary f) (quantum : Int) : Option (Binary f) := do
  let (m, e) ← significand x
  let shift ← i32 (quantum - e)
  if shift ≤ 0 ∨ m = 0 then return x
  else if (← u32 ((f.mantissaBits : Int) + 1)) < (← u32 shift) then return zero f x.negative
  else
    let kept ← keep m (← u32 shift)
    if kept = 0 then return zero f x.negative
    else
      let scale := min quantum f.bias
      return (.ofNat f kept * (← exp2 f scale) *
        (← exp2 f (← i32 (quantum - scale)))).withSign x.negative

/-- A value in the normal range rounded to `precision` mantissa bits. -/
def roundNormal (x : Binary f) (precision : Nat) : Option (Binary f) := do
  roundToQuantum x (← i32 ((← exponent x) - (← i32 precision)))

/-- A value below `2 ^ emin` rounded to the quantum of the least normal values. -/
def roundDenormal (x : Binary f) (emin : Int) (precision : Nat) : Option (Binary f) := do
  roundToQuantum x (← i32 (emin - (← i32 precision)))

/-- As `roundDenormal`, for finite values only and under a policy. -/
def roundSubnormal (x : Binary f) (emin : Int) (precision : Nat) (policy : ErrorPolicy) :
    Option (Binary f) := do
  if x.isFinite then
    if policy.boundsAbsolute then
      let bound ← u32 policy.absoluteExponent.natAbs
      roundDenormal x emin (min bound precision)
    else roundDenormal x emin precision
  else return x

/-- A normal value rounded under an absolute bound. -/
def roundAbsolute (x : Binary f) (precision : Nat) (policy : ErrorPolicy) :
    Option (Binary f) := do
  let above ← i64 ((← i64 (← exponent x)) - (← i64 policy.absoluteExponent))
  if above ≤ -2 then return zero f x.negative
  else if above = -1 then
    return (← exp2 f policy.absoluteExponent).withSign x.negative
  else
    let most ← i64 (if policy.mode = .combined then precision else f.mantissaBits : Nat)
    roundNormal x (← u32 (min above most))

/-- The value rounded to `precision` mantissa bits under the policy. -/
def round (x : Binary f) (precision : Nat) (policy : ErrorPolicy) : Option (Binary f) := do
  match x.category with
  | .nan | .infinite | .zero => return x
  | .subnormal => roundSubnormal x (← i32 (1 - f.bias)) precision policy
  | .normal =>
      if policy.boundsAbsolute then roundAbsolute x precision policy else roundNormal x precision

/-- The value as the target format holds it. -/
def clamp (x : Binary f) (side : Side) (target : Target) (ctx : Context) :
    Option (Binary f) := do
  if !x.isFinite || x.isZero then return x
  else
    let top ← emax target
    let bottom ← emin target
    let e ← exponent x
    if top < e then return infinity f x.negative
    else if e < bottom ∧ ctx.flushes side then return zero f x.negative
    else
      let rounded ←
        if e < bottom then roundSubnormal x bottom target.precision ctx.policy
        else round x target.precision ctx.policy
      if rounded.isFinite ∧ top < (← exponent rounded) then return infinity f x.negative
      else return rounded

/-! ## Fields -/

theorem and_exponentMask (x : Binary f) :
    (x.toBits &&& f.exponentMask) / 2 ^ f.mantissaBits = x.biasedExponent := by
  have hmask : f.exponentMask / 2 ^ f.mantissaBits = 2 ^ f.exponentBits - 1 :=
    Nat.mul_div_cancel _ (Nat.two_pow_pos _)
  have hbits : x.toBits / 2 ^ f.mantissaBits % 2 ^ f.exponentBits = x.biasedExponent := by
    have hlt := x.biasedExponent_lt
    unfold Binary.toBits
    split
    · rw [Format.magnitudeBound, Nat.pow_add, Nat.mul_add_div (Nat.two_pow_pos _)]
      rw [Nat.add_mod_left]
      exact Nat.mod_eq_of_lt hlt
    · rw [Nat.zero_add]
      exact Nat.mod_eq_of_lt hlt
  rw [← Nat.shiftRight_eq_div_pow, Nat.shiftRight_and_distrib, Nat.shiftRight_eq_div_pow,
    Nat.shiftRight_eq_div_pow, hmask, Nat.and_two_pow_sub_one_eq_mod, hbits]

theorem and_mantissaMask (x : Binary f) : x.toBits &&& f.mantissaMask = x.mantissa := by
  rw [Format.mantissaMask, Nat.and_two_pow_sub_one_eq_mod]
  unfold Binary.toBits
  split
  · rw [Format.magnitudeBound, Nat.pow_add, Nat.mul_add_mod]
    rfl
  · rw [Nat.zero_add]
    rfl

theorem exponentField_eq (x : Binary f) : exponentField x = some (x.biasedExponent : Int) := by
  have hm := f.mantissaBits_le
  have hlt := x.biasedExponent_lt
  have hbits : 2 ^ f.exponentBits ≤ 2048 := by cases f <;> decide
  unfold exponentField
  rw [shiftRight_eq_some _ (by omega), and_exponentMask, Option.bind_eq_bind, Option.bind_some]
  exact i32_eq_some (by omega)

theorem exponent_bounds (x : Binary f) : -1023 ≤ x.exponent ∧ x.exponent ≤ 1024 := by
  have hlt := x.biasedExponent_lt
  have hbits := Format.two_pow_exponentBits f
  have hb := f.bias_le
  unfold Binary.exponent
  omega

theorem exponent_eq (x : Binary f) : exponent x = some x.exponent := by
  have h := exponent_bounds x
  unfold exponent
  unfold Binary.exponent at h ⊢
  rw [exponentField_eq, Option.bind_eq_bind, Option.bind_some]
  exact i32_eq_some (by omega)

theorem significand_eq (x : Binary f) : significand x = some x.significand := by
  have hm := f.mantissaBits_le
  have hb := f.bias_le
  have h := exponent_bounds x
  have hmantissa : x.mantissa < 2 ^ f.mantissaBits := Nat.mod_lt _ (Nat.two_pow_pos _)
  have hone : shiftLeft 64 1 f.mantissaBits = some (2 ^ f.mantissaBits) :=
    shiftLeft_one_eq_some (by omega)
  have hor : x.mantissa ||| 2 ^ f.mantissaBits = 2 ^ f.mantissaBits + x.mantissa := by
    have hadd := Nat.two_pow_add_eq_or_of_lt hmantissa 1
    rw [Nat.mul_one] at hadd
    rw [Nat.or_comm, hadd]
  unfold significand Binary.significand
  unfold Binary.exponent at h
  rw [exponentField_eq, and_mantissaMask, hone, i32_eq_some (n := f.mantissaBits) (by omega),
    i32_eq_some (n := 1 - f.bias) (by omega)]
  by_cases hzero : x.biasedExponent = 0
  · rw [if_pos hzero]
    simp only [hzero, Option.bind_eq_bind, Option.bind_some]
    rw [i32_eq_some (by omega)]
    rfl
  · rw [if_neg hzero]
    simp only [Option.bind_eq_bind, Option.bind_some]
    rw [if_neg (by omega), i32_eq_some (by omega), hor, Option.bind_some, i32_eq_some (by omega)]
    rfl

/-! ## Powers of two -/

theorem ofBits_eq_ofMagnitude {n : Nat} (h : n ≤ f.infinityMagnitude) :
    Binary.ofBits f n = Binary.ofMagnitude false n := by
  have hlt : n < f.magnitudeBound := Nat.lt_of_le_of_lt h f.infinityMagnitude_lt
  unfold Binary.ofBits Binary.ofMagnitude
  congr 1
  · rw [Nat.div_eq_of_lt hlt]
    rfl
  · rw [Nat.mod_eq_of_lt hlt, Nat.min_eq_left h]

theorem exp2_eq {e : Int} (h : -4096 ≤ e ∧ e ≤ 4096) : exp2 f e = some (Binary.exp2 f e) := by
  have hm := f.mantissaBits_le
  have hb := f.bias_le
  have hfield := Format.two_pow_exponentBits f
  have hone : shiftLeft 32 1 f.exponentBits = some (2 ^ f.exponentBits) :=
    shiftLeft_one_eq_some (by cases f <;> decide)
  have htop : ((2 ^ f.exponentBits : Nat) : Int) - 1 = 2 ^ f.exponentBits - 1 := by
    rw [hfield, Format.two_pow_exponentBits_int]
    omega
  have hsize : 2 ^ f.exponentBits * 2 ^ f.mantissaBits ≤ 2 ^ 63 := by cases f <;> decide
  unfold exp2 Binary.exp2
  refine bind_eq (i32_eq_some (by omega)) (bind_eq (i32_eq_some (by omega)) ?_)
  refine bind_eq hone (bind_eq (i32_eq_some (by omega)) (bind_eq (i32_eq_some (by omega)) ?_))
  dsimp only
  rw [htop]
  split
  · -- the powers that are too large
    rw [Format.exponentMask, ofBits_eq_ofMagnitude (Nat.le_refl _)]
    rfl
  split
  · -- the field of a normal power stays below that of the infinities
    obtain ⟨b, hbiased⟩ := Int.eq_ofNat_of_zero_le (show 0 ≤ e + f.bias by omega)
    have hlt : b ≤ 2 ^ f.exponentBits - 1 := by omega
    have hmag : b * 2 ^ f.mantissaBits ≤ f.infinityMagnitude := Nat.mul_le_mul_right _ hlt
    have hfit : b * 2 ^ f.mantissaBits < 2 ^ 64 := by
      have := Nat.mul_le_mul_right (2 ^ f.mantissaBits) (Nat.le_trans hlt (Nat.sub_le _ _))
      omega
    rw [hbiased, Int.toNat_natCast, ← ofBits_eq_ofMagnitude hmag]
    exact bind_eq (u64_eq_some (by omega)) (bind_eq (shiftLeft_eq_some (by omega) hfit) rfl)
  refine bind_eq (i32_eq_some (by omega)) ?_
  split
  · -- a subnormal power is one bit below the field
    obtain ⟨k, hk⟩ := Int.eq_ofNat_of_zero_le
      (show 0 ≤ (f.mantissaBits : Int) - 1 + (e + f.bias) by omega)
    have hmag : 2 ^ k ≤ f.infinityMagnitude := by
      have hpow : 2 ^ k ≤ 2 ^ f.mantissaBits := Nat.pow_le_pow_right Nat.two_pos (by omega)
      rw [Format.infinityMagnitude]
      exact Nat.le_trans hpow (Nat.le_mul_of_pos_left _ (by omega))
    have hshift : shiftLeft 64 1 ((f.mantissaBits : Int) - 1 + (e + f.bias)) = some (2 ^ k) := by
      rw [hk]
      exact shiftLeft_one_eq_some (by omega)
    rw [hk, Int.toNat_natCast, ← ofBits_eq_ofMagnitude hmag]
    exact bind_eq (i32_eq_some (by omega)) (bind_eq (i32_eq_some (by omega)) (bind_eq hshift rfl))
  · rw [ofBits_eq_ofMagnitude (Nat.zero_le _)]
    rfl

/-! ## Rounding to a quantum -/

theorem keep_eq {m shift : Nat} (hs : 1 ≤ shift) (hs' : shift < 64) (hm : m < 2 ^ 63) :
    keep m shift = some (nearestEven m (2 ^ shift)) := by
  have hhalf : (2 : Nat) ^ shift = 2 * 2 ^ (shift - 1) := by
    rw [← Nat.pow_succ', Nat.succ_eq_add_one, Nat.sub_add_cancel hs]
  have hpos : 0 < 2 ^ shift := Nat.two_pow_pos shift
  have hlt : 2 ^ shift < 2 ^ 64 := Nat.pow_lt_pow_right Nat.one_lt_two hs'
  have hprev : (shift : Int) - 1 = (shift - 1 : Nat) := by omega
  have hmask : ((2 ^ shift : Nat) : Int) - 1 = (2 ^ shift - 1 : Nat) := by omega
  have hkept : m / 2 ^ shift ≤ m := Nat.div_le_self _ _
  unfold keep nearestEven
  rw [hprev, u32_eq_some (by omega), shiftLeft_one_eq_some hs', shiftRight_eq_some m hs']
  simp only [Option.bind_eq_bind, Option.bind_some]
  rw [shiftLeft_one_eq_some (by omega), Option.bind_some, hmask, u64_eq_some (by omega),
    Option.bind_some, Nat.and_two_pow_sub_one_eq_mod]
  by_cases hup : 2 ^ (shift - 1) < m % 2 ^ shift ∨
      (m % 2 ^ shift = 2 ^ (shift - 1) ∧ m / 2 ^ shift % 2 = 1)
  · have hnext : ((m / 2 ^ shift : Nat) : Int) + 1 = (m / 2 ^ shift + 1 : Nat) := by omega
    rw [if_pos hup, if_pos (by omega), hnext, u64_eq_some (by omega)]
  · rw [if_neg hup, if_neg (by omega)]
    rfl

/-- A significand has at most 53 bits, and its last bit is at most 1100 places away. -/
theorem significand_bounds (x : Binary f) :
    x.significand.1 < 2 ^ 53 ∧ -1100 ≤ x.significand.2 ∧ x.significand.2 ≤ 1100 := by
  obtain ⟨j, he, hj, -, hlt⟩ := Binary.significand_spec x
  have hfield := x.biasedExponent_lt
  have hbits := Format.two_pow_exponentBits f
  have hunit := f.unitExponent_add_one
  have hb := f.bias_le
  have hm := f.mantissaBits_le
  have hpow : 2 ^ (f.mantissaBits + 1) ≤ 2 ^ 53 := Nat.pow_le_pow_right Nat.two_pos (by omega)
  exact ⟨Nat.lt_of_lt_of_le hlt hpow, by omega, by omega⟩

theorem roundToQuantum_eq (x : Binary f) {quantum : Int} (h : -4096 ≤ quantum ∧ quantum ≤ 4096) :
    roundToQuantum x quantum = some (x.roundToQuantum quantum) := by
  have hm := f.mantissaBits_le
  have hb := f.bias_le
  unfold roundToQuantum Binary.roundToQuantum
  refine bind_eq (significand_eq x) ?_
  obtain ⟨hlt, hlow, hhigh⟩ := significand_bounds x
  generalize x.significand = p at hlt hlow hhigh ⊢
  obtain ⟨m, e⟩ := p
  refine bind_eq (i32_eq_some (by dsimp only at *; omega)) ?_
  dsimp only at hlt hlow hhigh ⊢
  split
  · rfl
  · next hshift =>
    obtain ⟨k, hk⟩ := Int.eq_ofNat_of_zero_le (show 0 ≤ quantum - e by omega)
    rw [hk, Int.toNat_natCast]
    have hnext : u32 ((f.mantissaBits : Int) + 1) = some (f.mantissaBits + 1) :=
      u32_eq_some (n := f.mantissaBits + 1) (by omega)
    refine bind_eq hnext (bind_eq (u32_eq_some (by omega)) ?_)
    by_cases hbig : f.mantissaBits + 1 < k
    · rw [if_pos hbig, if_pos (by omega)]
      rfl
    · -- only here is the significand shifted, and by less than its word is wide
      rw [if_neg hbig, if_neg (by omega)]
      refine bind_eq (u32_eq_some (by omega)) (bind_eq (keep_eq (by omega) (by omega) (by omega)) ?_)
      split
      · rfl
      · -- the quantum is split into two powers, neither of which is out of range
        refine bind_eq (exp2_eq (by omega)) (bind_eq (i32_eq_some (by omega))
          (bind_eq (exp2_eq (by omega)) rfl))

/-! ## Rounding to a precision -/

theorem roundNormal_eq (x : Binary f) {precision : Nat} (h : precision ≤ 52) :
    roundNormal x precision = some (x.roundNormal precision) := by
  have he := exponent_bounds x
  unfold roundNormal Binary.roundNormal
  rw [Binary.quantumDepth_eq h]
  exact bind_eq (exponent_eq x) (bind_eq (i32_eq_some (by omega))
    (bind_eq (i32_eq_some (by omega)) (roundToQuantum_eq x (by omega))))

theorem roundDenormal_eq (x : Binary f) {emin : Int} {precision : Nat}
    (he : -1100 ≤ emin ∧ emin ≤ 1100) (h : precision ≤ 52) :
    roundDenormal x emin precision = some (x.roundDenormal emin precision) := by
  unfold roundDenormal Binary.roundDenormal
  rw [Binary.quantumDepth_eq h]
  exact bind_eq (i32_eq_some (by omega)) (bind_eq (i32_eq_some (by omega))
    (roundToQuantum_eq x (by omega)))

/-- The exponent of the absolute bound is a signed word of 32 bits. -/
def FitsPolicy (policy : ErrorPolicy) : Prop :=
  -2147483648 ≤ policy.absoluteExponent ∧ policy.absoluteExponent < 2147483648

theorem roundSubnormal_eq (x : Binary f) {emin : Int} {precision : Nat} {policy : ErrorPolicy}
    (he : -1100 ≤ emin ∧ emin ≤ 1100) (h : precision ≤ 52) (hp : FitsPolicy policy) :
    roundSubnormal x emin precision policy = some (x.roundSubnormal emin precision policy) := by
  obtain ⟨hlow, hhigh⟩ := hp
  unfold roundSubnormal Binary.roundSubnormal
  split
  · split
    · have hmin : min policy.absoluteExponent.natAbs precision ≤ 52 := by omega
      exact bind_eq (u32_eq_some (by omega)) (roundDenormal_eq x he hmin)
    · exact roundDenormal_eq x he h
  · rfl

theorem roundAbsolute_eq (x : Binary f) {precision : Nat} {policy : ErrorPolicy}
    (h : precision ≤ 52) (hp : FitsPolicy policy) :
    roundAbsolute x precision policy = some (x.roundAbsolute precision policy) := by
  have hm := f.mantissaBits_le
  have he := exponent_bounds x
  obtain ⟨hlow, hhigh⟩ := hp
  unfold roundAbsolute Binary.roundAbsolute
  refine bind_eq (exponent_eq x) (bind_eq (i64_eq_some (by omega)) (bind_eq (i64_eq_some (by omega))
    (bind_eq (i64_eq_some (by omega)) ?_)))
  dsimp only
  split
  · rfl
  split
  · -- the bound is next to the exponent of the value, so its power is in range
    exact bind_eq (exp2_eq (by omega)) rfl
  · have hle : (if policy.mode = .combined then precision else f.mantissaBits) ≤ 52 := by
      split <;> omega
    generalize (if policy.mode = .combined then precision else f.mantissaBits) = most at hle ⊢
    refine bind_eq (i64_eq_some (by omega)) ?_
    obtain ⟨k, hk⟩ := Int.eq_ofNat_of_zero_le
      (show 0 ≤ min (x.exponent - policy.absoluteExponent) most by omega)
    rw [hk, Int.toNat_natCast]
    exact bind_eq (u32_eq_some (by omega)) (roundNormal_eq x (by omega))

theorem round_eq (x : Binary f) {precision : Nat} {policy : ErrorPolicy} (h : precision ≤ 52)
    (hp : FitsPolicy policy) : round x precision policy = some (x.round precision policy) := by
  have hb := f.bias_le
  unfold round Binary.round
  cases x.category with
  | nan => rfl
  | infinite => rfl
  | zero => rfl
  | subnormal =>
    exact bind_eq (i32_eq_some (by omega)) (roundSubnormal_eq x (by omega) h hp)
  | normal =>
    dsimp only
    split
    · exact roundAbsolute_eq x h hp
    · exact roundNormal_eq x h

/-! ## Fitting a value to a target -/

theorem emax_eq (ht : t.Valid f) : emax t = some t.emax := by
  have hge : 2 ≤ t.range := ht.range_ge
  have hle : t.range ≤ 11 := Nat.le_trans ht.range_le (by cases f <;> decide)
  have hpow : 2 ^ (t.range - 1) ≤ 2 ^ 10 := Nat.pow_le_pow_right Nat.two_pos (by omega)
  have hprev : (t.range : Int) - 1 = (t.range - 1 : Nat) := by omega
  have hshift : shiftLeft 32 1 (t.range - 1 : Nat) = some (2 ^ (t.range - 1)) :=
    shiftLeft_one_eq_some (by omega)
  unfold emax
  rw [t.emax_eq, hprev]
  refine bind_eq (u32_eq_some (by omega)) (bind_eq hshift ?_)
  generalize 2 ^ (t.range - 1) = power at hpow
  exact bind_eq (i32_eq_some (by omega)) (i32_eq_some (by omega))

theorem emax_bounds (ht : t.Valid f) : 1 ≤ t.emax ∧ t.emax ≤ 1023 := by
  have hb := f.bias_le
  have hmax := ht.emax_le_bias
  exact ⟨ht.one_le_emax, by omega⟩

theorem emin_bounds (ht : t.Valid f) : -1100 ≤ t.emin ∧ t.emin ≤ 1100 := by
  have h := emax_bounds ht
  unfold Target.emin
  omega

theorem emin_eq (ht : t.Valid f) : emin t = some t.emin := by
  have h := emax_bounds ht
  unfold emin Target.emin
  exact bind_eq (emax_eq ht) (i32_eq_some (by omega))

/-- On a valid target no step of the rounding overflows, and the result is the same. -/
theorem clamp_eq (ht : t.Valid f) (x : Binary f) (side : Side) {ctx : Context}
    (hp : FitsPolicy ctx.policy) : clamp x side t ctx = some (x.clamp side t ctx) := by
  have hprecision : t.precision ≤ 52 := Nat.le_trans ht.precision_le f.mantissaBits_le
  have hemin := emin_bounds ht
  unfold clamp Binary.clamp
  split
  · rfl
  -- the bounds of the range are found before the value is compared with them
  refine bind_eq (emax_eq ht) (bind_eq (emin_eq ht) (bind_eq (exponent_eq x) ?_))
  split
  · rfl
  split
  · rfl
  have hfit (rounded : Binary f) :
      (do if rounded.isFinite ∧ t.emax < (← exponent rounded) then
            return infinity f x.negative
          else return rounded) =
        some (if rounded.isFinite ∧ t.emax < rounded.exponent then infinity f x.negative
          else rounded) := by
    refine bind_eq (exponent_eq rounded) ?_
    split <;> rfl
  dsimp only
  split
  · exact bind_eq (roundSubnormal_eq x hemin hprecision hp) (hfit _)
  · exact bind_eq (round_eq x hprecision hp) (hfit _)

end VariablePrecision.Machine
