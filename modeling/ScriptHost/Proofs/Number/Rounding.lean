import Mathlib
import ScriptHost.Proofs.Number.Packing

/-!
# Numbers past the greatest float

A number is rounded by bringing its mantissa to 53 bits (`fitted`), rounding it (`rounded`), and
fitting it once more if that has made it longer. Only the exponent that it ends with decides whether
the bits hold a float or an infinity, and the exponents of floats end with 971. So a number is
rounded to infinity exactly if it reaches the `limit`, the middle between the greatest float and the
next power of two: between `2 ^ 1023` and `2 ^ 1024` the mantissa must be rounded up to `2 ^ 53`,
which happens from a half on, because the greatest mantissa is odd (`fitted_rounded_iff`).

What holds of rounding, `Settles`, then holds of products, of quotients, although their mantissas
are cut off before they are rounded, and of decimal numbers (`settles_float`). Decimals of few
digits with a small power of ten are computed by one operation on floats instead; they are far below
the limit, and so is what the operation gives.
-/

set_option autoImplicit false

namespace ScriptHost.Binary64

open Float.Model Float.Model.UnpackedFloat

/-- The least magnitude that is rounded to infinity: the greatest float and half a step. -/
def limit : ℚ := 2 ^ 1024 - 2 ^ 970

variable {s : Sign} {m : Nat} {e : Int} {a : Accuracy}

/-! ## Shifting and rounding a mantissa -/

/-- A shift divides the mantissa and rounds down; what is lost goes into the accuracy. -/
theorem mantissa_shiftRight (x : ExtendedMantissa) (k : Nat) :
    (x >>> k).mantissa = x.mantissa / 2 ^ k := by
  induction k with
  | zero => exact (Nat.div_one _).symm
  | succ k ih =>
    show (x >>> k).mantissa / 2 = _
    rw [ih, Nat.div_div_eq_div_mul, Nat.pow_succ]

/-- The bit that has been shifted out last. -/
theorem roundBit_shiftRight (x : ExtendedMantissa) (k : Nat) :
    (x >>> (k + 1)).roundBit = (x.mantissa / 2 ^ k % 2 != 0) := by
  show ((x >>> k).mantissa % 2 != 0) = _
  rw [mantissa_shiftRight]

theorem mantissa_ofMantissaAndAccuracy :
    (ExtendedMantissa.ofMantissaAndAccuracy m a).mantissa = m := by
  rcases a with _ | (_ | _ | _) <;> rfl

/-- Rounding to nearest adds one or nothing. -/
theorem roundedMantissa_cases (x : ExtendedMantissa) :
    x.roundedMantissa = x.mantissa ∨ x.roundedMantissa = x.mantissa + 1 := by
  obtain ⟨n, round, sticky⟩ := x
  have half : n + n % 2 = n ∨ n + n % 2 = n + 1 := by omega
  cases round <;> cases sticky
  exacts [.inl rfl, .inl rfl, half, .inr rfl]

/-- An odd mantissa is rounded up from a half on. -/
theorem roundedMantissa_odd {x : ExtendedMantissa} (odd : x.mantissa % 2 = 1) :
    x.roundedMantissa = x.mantissa + x.roundBit.toNat := by
  obtain ⟨n, round, sticky⟩ := x
  cases round <;> cases sticky <;> simp_all [ExtendedMantissa.roundedMantissa,
    ExtendedMantissa.accuracy, Accuracy.roundToNearestEven]

/-- The exponent at which a mantissa has no more than 53 bits and is not finer than the least
float. -/
def fitted (m : Nat) (e : Int) : Int := max e (max (m.log2 + e - 52) (-1074))

/-- A number is brought to the exponent that fits it by one shift. -/
theorem shiftToTargetExponent_eq (m : Nat) (e : Int) (a : Accuracy) :
    shiftToTargetExponent .binary64 m e a =
      (ExtendedMantissa.ofMantissaAndAccuracy m a >>> (fitted m e - e).toNat, fitted m e) := by
  have target : Format.binary64.targetExponent (totalExponent m e) =
      max (m.log2 + e - 52) (-1074) := by
    show max ((m.log2 : Int) + 1 + e - 53) (-1074) = _
    congr 1
    omega
  have amount : (max (m.log2 + e - 52) (-1074) - e).toNat = (fitted m e - e).toNat := by
    rw [fitted]
    omega
  have reached : e + ((fitted m e - e).toNat : Int) = fitted m e := by
    have above : e ≤ fitted m e := le_max_left _ _
    omega
  simp only [shiftToTargetExponent, shiftToExponent, target, amount, reached]

/-- The mantissa to which a number is rounded, at the exponent at which it fits. -/
def rounded (m : Nat) (e : Int) (a : Accuracy) : Nat :=
  (ExtendedMantissa.ofMantissaAndAccuracy m a >>> (fitted m e - e).toNat).roundedMantissa

theorem div_lt_two_pow {n k : Nat} (small : m.log2 < n + k) : m / 2 ^ k < 2 ^ n := by
  rw [Nat.div_lt_iff_lt_mul (by positivity), ← pow_add]
  exact lt_of_lt_of_le Nat.lt_log2_self (Nat.pow_le_pow_right (by decide) small)

theorem two_pow_le_div {n k : Nat} (large : n + k ≤ m.log2) (positive : m ≠ 0) :
    2 ^ n ≤ m / 2 ^ k := by
  rw [Nat.le_div_iff_mul_le (by positivity), ← pow_add]
  exact le_trans (Nat.pow_le_pow_right (by decide) large) (Nat.log2_self_le positive)

theorem least_le_fitted (m : Nat) (e : Int) : -1074 ≤ fitted m e :=
  le_trans (le_max_right _ _) (le_max_right _ _)

/-- A mantissa that is not zero does not vanish when it is fitted from an exponent of a float. -/
theorem div_fitted_ne_zero (least : -1074 ≤ e) (nonzero : m ≠ 0) :
    m / 2 ^ (fitted m e - e).toNat ≠ 0 := by
  have shifted : 2 ^ 0 ≤ m / 2 ^ (fitted m e - e).toNat := by
    apply two_pow_le_div _ nonzero
    rw [fitted]
    omega
  omega

/-- **What rounding gives.** A mantissa that has become longer is fitted once more. -/
theorem roundWithAccuracy_cases (s : Sign) (m : Nat) (e : Int) (a : Accuracy) :
    rounded m e a = 0 ∧ roundWithAccuracy .binary64 s m e a = .zero s ∨
    rounded m e a ≠ 0 ∧ ∃ n h, roundWithAccuracy .binary64 s m e a =
      .finite s n (fitted (rounded m e a) (fitted m e)) h := by
  have first :
      (ExtendedMantissa.ofMantissaAndAccuracy m a >>> (fitted m e - e).toNat).roundedMantissa =
        rounded m e a := rfl
  simp only [roundWithAccuracy, shiftToTargetExponent_eq, mantissa_shiftRight,
    mantissa_ofMantissaAndAccuracy, first]
  by_cases zero : rounded m e a = 0
  · exact .inl ⟨zero, dif_pos (by rw [zero, Nat.zero_div])⟩
  · have kept := div_fitted_ne_zero (least_le_fitted m e) zero
    exact .inr ⟨zero, _, Nat.pos_of_ne_zero kept, dif_neg kept⟩

/-! ## Which numbers are too large -/

/-- The limit is a whole number of steps between floats, whatever their exponent. -/
theorem limit_le_mul_iff (small : e ≤ 970) (x : ℚ) :
    limit ≤ x * 2 ^ e ↔ (((2 ^ 54 - 1) * 2 ^ (970 - e).toNat : Nat) : ℚ) ≤ x := by
  obtain ⟨k, rfl⟩ : ∃ k : Nat, e = 970 - k := ⟨(970 - e).toNat, by omega⟩
  have step : (970 - (970 - (k : Int))).toNat = k := by omega
  have power : (2 : ℚ) ^ (970 - (k : Int)) = 2 ^ 970 / 2 ^ k := by
    rw [zpow_sub₀ two_ne_zero, zpow_natCast, zpow_ofNat]
  have whole : limit = ((2 ^ 54 - 1 : Nat) : ℚ) * 2 ^ 970 := by
    have steps : ((2 ^ 54 - 1 : Nat) : ℚ) = 2 ^ 54 - 1 := by norm_num
    rw [limit, steps, sub_mul, one_mul, ← pow_add]
  rw [step, power, whole, ← mul_div_assoc, le_div_iff₀ (by positivity), mul_right_comm,
    mul_le_mul_iff_left₀ (by positivity)]
  rw [Nat.cast_mul, Nat.cast_pow, Nat.cast_two]

/-- Whether a number is too large shows in its leading 54 bits. -/
theorem limit_le_iff (small : e ≤ 970) :
    limit ≤ m * 2 ^ e ↔ 2 ^ 54 - 1 ≤ m / 2 ^ (970 - e).toNat := by
  rw [limit_le_mul_iff small, Nat.cast_le, Nat.le_div_iff_mul_le (by positivity)]

/-- What is left of a mantissa is its quotient, or one more. -/
theorem rounded_eq (m : Nat) (e : Int) (a : Accuracy) :
    rounded m e a = m / 2 ^ (fitted m e - e).toNat ∨
      rounded m e a = m / 2 ^ (fitted m e - e).toNat + 1 := by
  have cases :=
    roundedMantissa_cases (ExtendedMantissa.ofMantissaAndAccuracy m a >>> (fitted m e - e).toNat)
  rwa [mantissa_shiftRight, mantissa_ofMantissaAndAccuracy] at cases

/-- Rounding can carry to the next power of two, and not beyond. -/
theorem rounded_le (m : Nat) (e : Int) (a : Accuracy) : rounded m e a ≤ 2 ^ 53 := by
  have shifted : m / 2 ^ (fitted m e - e).toNat < 2 ^ 53 := by
    apply div_lt_two_pow
    rw [fitted]
    omega
  have cases := rounded_eq m e a
  omega

/-- The exponent grows by the second fitting only where the mantissa has become `2 ^ 53`. -/
theorem fitted_rounded (m : Nat) (e : Int) (a : Accuracy) :
    fitted (rounded m e a) (fitted m e) = fitted m e + if rounded m e a = 2 ^ 53 then 1 else 0 := by
  have least := least_le_fitted m e
  have bound := rounded_le m e a
  generalize rounded m e a = r at bound
  by_cases top : r = 2 ^ 53
  · have long : r.log2 = 53 := by rw [top, Nat.log2_two_pow]
    rw [if_pos top, fitted, long]
    omega
  · have short : r.log2 ≤ 52 := by
      by_cases zero : r = 0
      · simp [zero]
      · exact Nat.le_of_lt_succ ((Nat.log2_lt zero).mpr (by omega))
    rw [if_neg top, fitted]
    omega

/-- A mantissa is rounded up to `2 ^ 53` from a half on: the one before it is odd. -/
theorem rounded_eq_two_pow_iff {k : Nat} (amount : (fitted m e - e).toNat = k + 1)
    (few : m / 2 ^ k < 2 ^ 54) : rounded m e a = 2 ^ 53 ↔ 2 ^ 54 - 1 ≤ m / 2 ^ k := by
  have half : m / 2 ^ (k + 1) = m / 2 ^ k / 2 := by rw [pow_succ, Nat.div_div_eq_div_mul]
  have cases := rounded_eq m e a
  rw [amount, half] at cases
  have up : m / 2 ^ k / 2 % 2 = 1 → rounded m e a = m / 2 ^ k / 2 + (m / 2 ^ k % 2 != 0).toNat := by
    intro odd
    rw [rounded, amount, roundedMantissa_odd, roundBit_shiftRight, mantissa_shiftRight,
      mantissa_ofMantissaAndAccuracy, half]
    rwa [mantissa_shiftRight, mantissa_ofMantissaAndAccuracy, half]
  generalize m / 2 ^ k = p at few cases up
  have bit : (p % 2 != 0).toNat = p % 2 := by
    rcases Nat.mod_two_eq_zero_or_one p with even | odd <;> simp [*]
  omega

/-- **A number is rounded past the greatest exponent exactly if it reaches the limit.** -/
theorem fitted_rounded_iff (small : e ≤ 970) (a : Accuracy) :
    rounded m e a ≠ 0 ∧ 972 ≤ fitted (rounded m e a) (fitted m e) ↔ limit ≤ m * 2 ^ e := by
  rw [limit_le_iff small, fitted_rounded]
  generalize steps : (970 - e).toNat = k
  rcases lt_trichotomy m.log2 (53 + k) with below | middle | above
  · -- at most the exponent 970, and one more by rounding
    have few : m / 2 ^ k < 2 ^ 53 := div_lt_two_pow below
    have fits : fitted m e ≤ 970 := by
      rw [fitted]
      omega
    have last : ¬ 972 ≤ fitted m e + if rounded m e a = 2 ^ 53 then 1 else 0 := by split <;> omega
    exact iff_of_false (fun reached => last reached.2) (by omega)
  · -- the exponent 971: all depends on whether the mantissa is rounded up to the next power of two
    have fits : fitted m e = 971 := by
      rw [fitted]
      omega
    have few : m / 2 ^ k < 2 ^ 54 := div_lt_two_pow (by omega)
    have amount : (fitted m e - e).toNat = k + 1 := by omega
    rw [fits, ← rounded_eq_two_pow_iff (a := a) amount few]
    split <;> omega
  · -- past the exponent 971 already before it is rounded
    have positive : m ≠ 0 := by
      rintro rfl
      rw [Nat.log2_zero] at above
      omega
    have many : 2 ^ 54 ≤ m / 2 ^ k := two_pow_le_div (by omega) positive
    have fits : 972 ≤ fitted m e := by
      rw [fitted]
      omega
    have kept : 2 ^ 0 ≤ m / 2 ^ (fitted m e - e).toNat := by
      apply two_pow_le_div _ positive
      rw [fitted]
      omega
    have cases := rounded_eq m e a
    refine iff_of_true ⟨by omega, ?_⟩ (by omega)
    split <;> omega

/-! ## What the bits hold -/

/-- A zero, or a number with the exponent and a mantissa of 53 bits. -/
inductive AtScale (p : Int) : UnpackedFloat → Prop
  | zero (s : Sign) : AtScale p (.zero s)
  | finite (s : Sign) {n : Nat} (positive : 0 < n) (short : n < 2 ^ 53) :
    AtScale p (.finite s n p positive)

variable {p q : Int} {u v : UnpackedFloat} {b : BitVec Format.binary64.numBits}

/-- What has a scale is no infinity and no NaN. -/
theorem AtScale.isFinite (scaled : AtScale p u) : u.isFinite = true := by cases scaled <;> rfl

/-- Bits with an exponent between the two that are kept for other uses hold a normal float. -/
theorem unpack_normal (low : unpackExponent b ≠ 0#_) (high : unpackExponent b ≠ -1#_) :
    ∃ s n h, unpack .binary64 b = .finite s n ((unpackExponent b).toNat - 1075) h ∧ n < 2 ^ 53 := by
  fun_cases unpack Format.binary64 b with
  | case1 | case2 => contradiction
  | case3 | case4 => contradiction
  | case5 mantissa exponent place =>
    refine ⟨_, _, _, rfl, ?_⟩
    rw [toNat_append_mantissa, leadingBit]
    have small : mantissa.toNat < 2 ^ 52 := mantissa.isLt
    omega

/-- Subnormal numbers are multiples of the least one. -/
theorem atScale_subnormal (low : unpackExponent b = 0#_) :
    AtScale (-1074) (unpack .binary64 b) := by
  fun_cases unpack Format.binary64 b with
  | case1 _ _ _ _ ones | case2 _ _ ones => exact absurd (low.symm.trans ones) (by decide)
  | case3 => exact .zero _
  | case4 mantissa exponent place =>
    have small : mantissa.toNat < 2 ^ 52 := mantissa.isLt
    have read : place + 1 = -1074 := by
      have zero : exponent.toNat = 0 := congrArg BitVec.toNat low
      show (exponent.toNat : Int) - (1023 + 52) + 1 = -1074
      omega
    rw [read]
    exact .finite _ _ (by omega)
  | case5 => contradiction

/-- Bits with an exponent that is not kept for the infinities hold a float. -/
theorem atScale_unpack (high : unpackExponent b ≠ -1#_) :
    AtScale (max (unpackExponent b).toNat 1 - 1075 : Int) (unpack .binary64 b) := by
  by_cases low : unpackExponent b = 0#_
  · rw [low]
    exact atScale_subnormal low
  · obtain ⟨s, n, positive, read, short⟩ := unpack_normal low high
    have stored : (unpackExponent b).toNat ≠ 0 := fun zero => low (BitVec.eq_of_toNat_eq zero)
    have exponent : (max (unpackExponent b).toNat 1 - 1075 : Int) =
        (unpackExponent b).toNat - 1075 := by omega
    rw [exponent, read]
    exact .finite s positive short

/-- The exponent of a finite float. -/
theorem atScale_of_isFinite (finite : (unpack .binary64 b).isFinite = true) :
    ∃ p ≤ 971, AtScale p (unpack .binary64 b) := by
  have high : unpackExponent b ≠ -1#_ := by
    intro ones
    have infinite : (unpack .binary64 b).isFinite = false := by
      fun_cases unpack Format.binary64 b with
      | case1 | case2 => rfl
      | case3 | case4 | case5 => contradiction
    rw [infinite] at finite
    cases finite
  have range : (unpackExponent b).toNat < 2048 := (unpackExponent b).isLt
  have below : (unpackExponent b).toNat ≠ 2047 := fun top => high (BitVec.eq_of_toNat_eq top)
  exact ⟨_, by omega, atScale_unpack high⟩

/-- Exponents beyond the greatest one give infinity. -/
theorem pack_of_large {h : 0 < m} (large : 972 ≤ e) :
    Float.Model.pack (.finite s m e h) = .pack (.infinity s) := by
  have past : 2 ^ Format.binary64.exponentBits ≤
      (e + Format.binary64.exponentBias + Format.binary64.mantissaBitsWithoutImplicit).toNat +
        1 := by
    show 2048 ≤ (e + 1023 + 52).toNat + 1
    omega
  simp only [Float.Model.pack, UnpackedFloat.pack, if_pos past]

/-- A number with an exponent of a float is written with it, or with the least one. -/
theorem atScale_pack {h : 0 < m} (small : e ≤ 971) :
    ∃ p, (p = e ∨ p = -1074) ∧ AtScale p (Float.Model.pack (.finite s m e h)).unpack := by
  let biased :=
    (e + Format.binary64.exponentBias + Format.binary64.mantissaBitsWithoutImplicit).toNat
  have value : biased = (e + 1075).toNat :=
    congrArg Int.toNat (by show e + 1023 + 52 = e + 1075; omega)
  have inside : ¬ 2 ^ Format.binary64.exponentBits ≤ biased + 1 := by
    show ¬ 2048 ≤ biased + 1
    omega
  have written : UnpackedFloat.pack .binary64 (.finite s m e h) = if m.log2 + 1 =
      Format.binary64.mantissaBits then
      packComponents .binary64 s (.ofNat _ biased) (.ofNat _ m)
        else packComponents .binary64 s 0#_ (.ofNat _ m) := by
    simp only [UnpackedFloat.pack, biased, if_neg inside]
  show ∃ p, _ ∧ AtScale p (unpack .binary64 (UnpackedFloat.pack .binary64 (.finite s m e h)))
  rw [written]
  split
  · have stored : (BitVec.ofNat Format.binary64.exponentBits biased).toNat = biased := by
      rw [BitVec.toNat_ofNat]
      apply Nat.mod_eq_of_lt
      omega
    have high : BitVec.ofNat Format.binary64.exponentBits biased ≠ -1#_ := by
      intro ones
      have top : biased = 2047 := stored.symm.trans (congrArg BitVec.toNat ones)
      omega
    have scaled := atScale_unpack (b := packComponents .binary64 s (.ofNat _ biased) (.ofNat _ m))
      (by rwa [unpackExponent_packComponents])
    rw [unpackExponent_packComponents, stored] at scaled
    exact ⟨_, by omega, scaled⟩
  · exact ⟨_, .inr rfl, atScale_subnormal unpackExponent_packComponents⟩

/-! ## Rounding to a float or to infinity -/

/-- What is kept of a number of the magnitude `x`: an infinity from the limit on, and a finite float
below it. -/
structure Settles (s : Sign) (x : ℚ) (y : Float.Model) : Prop where
  infinite : limit ≤ x → y = .pack (.infinity s)
  finite : x < limit → y.isFinite = true

theorem isFinite_pack_zero (s : Sign) : (Float.Model.pack (.zero s)).isFinite = true := by
  cases s <;> rfl

/-- Whether the result is finite depends on whether the number is too large, and on nothing else. -/
theorem Settles.congr {x y : ℚ} {z : Float.Model} (settles : Settles s x z)
    (same : limit ≤ x ↔ limit ≤ y) : Settles s y z :=
  ⟨fun large => settles.infinite (same.mpr large),
    fun small => settles.finite (not_le.mp (mt same.mp small.not_ge))⟩

/-- **Rounding.** -/
theorem settles_round (s : Sign) (m : Nat) (small : e ≤ 970) (a : Accuracy) :
    Settles s (m * 2 ^ e) (.pack (roundWithAccuracy .binary64 s m e a)) := by
  have large := fitted_rounded_iff (m := m) small a
  rcases roundWithAccuracy_cases s m e a with ⟨zero, result⟩ | ⟨nonzero, n, positive, result⟩
  · rw [result]
    exact ⟨fun reached => absurd zero (large.mpr reached).1, fun _ => isFinite_pack_zero s⟩
  · rw [result]
    constructor
    · exact fun reached => pack_of_large (large.mpr reached).2
    · intro below
      have fits : ¬ 972 ≤ fitted (rounded m e a) (fitted m e) :=
        fun past => absurd below (large.mp ⟨nonzero, past⟩).not_gt
      obtain ⟨p, -, scaled⟩ :=
        atScale_pack (s := s) (h := positive) (Int.lt_add_one_iff.mp (not_le.mp fits))
      exact scaled.isFinite

variable {m₁ m₂ : Nat} {e₁ e₂ : Int} {h₁ : 0 < m₁} {h₂ : 0 < m₂}

/-- Products settle by their exact value. -/
theorem settles_mul (s₁ s₂ : Sign) (small : e₁ + e₂ ≤ 970) :
    Settles (s₁ * s₂) (m₁ * 2 ^ e₁ * (m₂ * 2 ^ e₂))
      (.pack (UnpackedFloat.mul .binary64 (.finite s₁ m₁ e₁ h₁) (.finite s₂ m₂ e₂ h₂))) := by
  have product : (m₁ : ℚ) * 2 ^ e₁ * (m₂ * 2 ^ e₂) = (m₁ * m₂ : Nat) * 2 ^ (e₁ + e₂) := by
    rw [zpow_add₀ two_ne_zero, Nat.cast_mul]
    ring
  rw [product]
  exact settles_round (s₁ * s₂) (m₁ * m₂) small .exact

/-- A quotient is taken with enough bits in front that it can be rounded. -/
theorem divCore_eq (m₁ : Nat) (e₁ : Int) (m₂ : Nat) (e₂ : Int) :
    ∃ (k : Nat) (t : Int) (acc : Accuracy),
    divCore .binary64 m₁ e₁ m₂ e₂ = (m₁ * 2 ^ k / m₂, t, acc) ∧ e₁ - e₂ = t + k := by
  rw [divCore]
  generalize Format.binary64.targetExponent (totalExponent m₁ e₁ - totalExponent m₂ e₂) = target
  refine ⟨(e₁ - e₂ - min (e₁ - e₂) target).toNat, min (e₁ - e₂) target, ?_⟩
  rw [← Nat.shiftLeft_eq]
  exact ⟨_, rfl, by omega⟩

/-- The quotient of two mantissas is cut off, but never from above the limit to below it. -/
theorem settles_div (s₁ s₂ : Sign) (small : e₁ - e₂ ≤ 970) :
    Settles (s₁ / s₂) (m₁ * 2 ^ e₁ / (m₂ * 2 ^ e₂))
      (.pack (UnpackedFloat.div .binary64 (.finite s₁ m₁ e₁ h₁) (.finite s₂ m₂ e₂ h₂))) := by
  obtain ⟨k, t, acc, core, exponent⟩ := divCore_eq m₁ e₁ m₂ e₂
  have result : UnpackedFloat.div .binary64 (.finite s₁ m₁ e₁ h₁) (.finite s₂ m₂ e₂ h₂) =
      roundWithAccuracy .binary64 (s₁ / s₂) (m₁ * 2 ^ k / m₂) t acc := by
    simp only [UnpackedFloat.div, core]
  rw [result]
  apply (settles_round _ _ (by omega) acc).congr
  have quotient : (m₁ : ℚ) * 2 ^ e₁ / (m₂ * 2 ^ e₂) = (m₁ * 2 ^ k : Nat) / m₂ * 2 ^ t := by
    have split : (2 : ℚ) ^ e₁ = 2 ^ e₂ * 2 ^ t * 2 ^ k := by
      rw [← zpow_natCast, ← zpow_add₀ two_ne_zero, ← zpow_add₀ two_ne_zero]
      congr 1
      omega
    have positive : (m₂ : ℚ) ≠ 0 := by exact_mod_cast h₂.ne'
    rw [split]
    push_cast
    field_simp
  rw [quotient, limit_le_mul_iff (by omega), limit_le_mul_iff (by omega), Nat.cast_le,
    Nat.le_div_iff_mul_le h₂, le_div_iff₀ (by exact_mod_cast h₂)]
  exact_mod_cast Iff.rfl

/-! ## Decimal numbers -/

/-- Zero is finite, as the result for what is not too large has to be. -/
theorem settles_zero {x : ℚ} (small : x < limit) : Settles s x (.pack (.zero s)) :=
  ⟨fun large => absurd small large.not_gt, fun _ => isFinite_pack_zero s⟩

theorem two_pow_lt_limit {n : Int} (small : n ≤ 1023) : (2 : ℚ) ^ n < limit := by
  have last : (2 : ℚ) ^ n ≤ 2 ^ 1023 := by
    rw [← zpow_natCast]
    exact zpow_le_zpow_right₀ one_le_two small
  have step : (2 : ℚ) ^ 970 < 2 ^ 1023 := pow_lt_pow_right₀ one_lt_two (by decide)
  have double : (2 : ℚ) ^ 1024 = 2 ^ 1023 + 2 ^ 1023 := by rw [← two_mul, ← pow_succ']
  apply lt_of_le_of_lt last
  rw [limit, double]
  exact lt_sub_iff_add_lt.mpr (add_lt_add_right step _)

theorem one_lt_limit : 1 < limit := by
  have first := two_pow_lt_limit (n := 0) (by decide)
  rwa [zpow_zero] at first

theorem limit_lt_two_pow {n : Nat} (large : 1024 ≤ n) : limit < 2 ^ n := by
  have below : limit < 2 ^ 1024 := sub_lt_self _ (by positivity)
  exact lt_of_lt_of_le below (pow_le_pow_right₀ one_le_two large)

/-- With 1024 zeros any number but zero is too large. -/
theorem limit_le_mul_ten_pow {k : Nat} (nonzero : m ≠ 0) (huge : 1024 ≤ k) :
    limit ≤ m * 10 ^ k := by
  have whole : (1 : ℚ) ≤ m := by exact_mod_cast Nat.one_le_iff_ne_zero.mpr nonzero
  calc limit ≤ 2 ^ k := (limit_lt_two_pow huge).le
    _ ≤ 10 ^ k := pow_le_pow_left₀ (by norm_num) (by norm_num) k
    _ ≤ m * 10 ^ k := le_mul_of_one_le_left (by positivity) whole

/-- Divided by more powers of ten than it has bits, a number is small. -/
theorem div_ten_pow_lt_limit {k : Nat} (tiny : m.log2 < k) : m / 10 ^ k < limit := by
  have below : m < 10 ^ k :=
    calc m < 2 ^ (m.log2 + 1) := Nat.lt_log2_self
      _ ≤ 2 ^ k := Nat.pow_le_pow_right (by decide) tiny
      _ ≤ 10 ^ k := Nat.pow_le_pow_left (by decide) k
  exact lt_trans ((div_lt_one (by positivity)).mpr (by exact_mod_cast below)) one_lt_limit

/-- A decimal number is rounded once, or not at all where its exponent alone decides. -/
theorem settles_ofScientific (m : Nat) (e : Int) :
    Settles .positive (m * 10 ^ e) (Float.Model.ofScientific m e) := by
  have bits : (2 : Int) ^ Format.binary64.exponentBits = 2048 := rfl
  show Settles _ _ (.pack (UnpackedFloat.ofScientific .binary64 m e))
  rw [UnpackedFloat.ofScientific, bits]
  split_ifs with zero huge tiny natural
  · rw [zero, Nat.cast_zero, zero_mul]
    exact settles_zero (lt_trans one_pos one_lt_limit)
  · obtain ⟨k, rfl⟩ : ∃ k : Nat, e = k := ⟨e.toNat, by omega⟩
    have large : limit ≤ m * 10 ^ k := limit_le_mul_ten_pow zero (by omega)
    rw [zpow_natCast]
    exact ⟨fun _ => rfl, fun small => absurd small large.not_gt⟩
  · obtain ⟨k, rfl⟩ : ∃ k : Nat, e = -k := ⟨(-e).toNat, by omega⟩
    rw [zpow_neg, zpow_natCast, ← div_eq_mul_inv]
    exact settles_zero (div_ten_pow_lt_limit (by omega))
  · obtain ⟨k, rfl⟩ := Int.eq_ofNat_of_zero_le natural
    have product : (m : ℚ) * (10 : ℚ) ^ (k : Int) = (m <<< 53 : Nat) * 2 ^ (-53 : Int) *
        ((10 ^ k : Nat) * 2 ^ (0 : Int)) := by
      rw [Nat.shiftLeft_eq, zpow_natCast, zpow_zero]
      push_cast
      ring
    rw [product]
    exact settles_mul .positive .positive (by decide)
  · obtain ⟨k, rfl⟩ : ∃ k : Nat, e = -k := ⟨(-e).toNat, by omega⟩
    have power : (- -(k : Int)).toNat = k := by omega
    have quotient : (m : ℚ) * 10 ^ (-k : Int) =
        m * 2 ^ (0 : Int) / ((10 ^ (- -(k : Int)).toNat : Nat) * 2 ^ (0 : Int)) := by
      rw [zpow_neg, zpow_natCast, zpow_zero, power]
      push_cast
      rw [mul_one, mul_one, div_eq_mul_inv]
    rw [quotient]
    exact settles_div .positive .positive (by decide)

/-! ### Exact powers of ten -/

theorem log2_shiftLeft (nonzero : m ≠ 0) (k : Nat) : (m <<< k).log2 = m.log2 + k := by
  induction k with
  | zero => rfl
  | succ k ih =>
    have kept : m <<< k ≠ 0 := by
      rw [Nat.shiftLeft_eq]
      positivity
    rw [Nat.shiftLeft_succ, Nat.log2_two_mul kept, ih, Nat.add_assoc]

/-- A natural number of 64 bits. -/
theorem atScale_ofNat {n : Nat} (short : n.log2 < 64) :
    ∃ p ≤ 12, AtScale p (Float.Model.pack (UnpackedFloat.ofNat .binary64 n)).unpack := by
  rcases n.eq_zero_or_pos with rfl | positive
  · exact ⟨0, by decide, .zero .positive⟩
  · have sign : compare (n : Int) 0 = .gt := compare_gt_iff_gt.mpr (by omega)
    have made : UnpackedFloat.ofNat .binary64 n = UnpackedFloat.round .binary64 .positive n 0 := by
      simp only [UnpackedFloat.ofNat, UnpackedFloat.ofInt, UnpackedFloat.normalize, sign,
        Int.toNat_natCast]
    simp only [made, UnpackedFloat.round, decreaseExponent]
    generalize (0 - Format.binary64.targetExponent (totalExponent n 0)).toNat = k
    have exponent : fitted (rounded (n <<< k) (0 - k) .exact) (fitted (n <<< k) (0 - k)) ≤ 12 := by
      rw [fitted_rounded, fitted, log2_shiftLeft positive.ne']
      split <;> omega
    rcases roundWithAccuracy_cases .positive (n <<< k) (0 - k) .exact
      with ⟨-, result⟩ | ⟨-, m, h, result⟩
    · rw [result]
      exact ⟨0, by decide, .zero .positive⟩
    · rw [result]
      obtain ⟨p, same, scaled⟩ :=
        atScale_pack (s := .positive) (h := h) (exponent.trans (by decide))
      exact ⟨p, by omega, scaled⟩

/-- The powers of ten that are floats are normal, and neither large nor small. -/
theorem exponent_powersOfTen : ∀ x ∈ Float.exactlyRepresentablePowersOfTen.toList,
    1023 ≤ (@unpackExponent .binary64 x.toModel.toBits.toBitVec).toNat ∧
    (@unpackExponent .binary64 x.toModel.toBits.toBitVec).toNat ≤ 1096 := by
  decide

theorem mul_zpow_lt {n : Nat} (short : n < 2 ^ 53) (p : Int) : (n : ℚ) * 2 ^ p < 2 ^ (53 + p) := by
  have below : (n : ℚ) < 2 ^ (53 : Int) := by exact_mod_cast short
  rw [zpow_add₀ two_ne_zero]
  exact mul_lt_mul_of_pos_right below (by positivity)

/-- A product of floats that are not large. -/
theorem isFinite_mul (left : AtScale p u) (right : AtScale q v) (small : p + q ≤ 900) :
    (Float.Model.pack (UnpackedFloat.mul .binary64 u v)).isFinite = true := by
  cases left with
  | zero s => cases right with | zero t | finite t => exact isFinite_pack_zero (s * t)
  | @finite s n positive short =>
    cases right with
    | zero t => exact isFinite_pack_zero (s * t)
    | @finite t k positive' short' =>
      apply (settles_mul s t (by omega)).finite
      calc (n : ℚ) * 2 ^ p * (k * 2 ^ q) < 2 ^ (53 + p) * 2 ^ (53 + q) :=
            mul_lt_mul'' (mul_zpow_lt short p) (mul_zpow_lt short' q) (by positivity)
              (by positivity)
        _ = 2 ^ (53 + p + (53 + q)) := (zpow_add₀ two_ne_zero _ _).symm
        _ < limit := two_pow_lt_limit (by omega)

/-- A quotient of a float that is not large by one that is not small. -/
theorem isFinite_div {n : Nat} {positive : 0 < n} (left : AtScale p u) (small : p - q ≤ 900) :
    (Float.Model.pack (UnpackedFloat.div .binary64 u (.finite s n q positive))).isFinite =
      true := by
  cases left with
  | zero t => exact isFinite_pack_zero (t / s)
  | @finite t k positive' short =>
    apply (settles_div t s (by omega)).finite
    have whole : (1 : ℚ) ≤ n := by exact_mod_cast positive
    calc (k : ℚ) * 2 ^ p / (n * 2 ^ q) ≤ k * 2 ^ p / 2 ^ q := by
          apply div_le_div_of_nonneg_left (by positivity) (by positivity)
          exact le_mul_of_one_le_left (by positivity) whole
      _ < 2 ^ (53 + p) / 2 ^ q := div_lt_div_of_pos_right (mul_zpow_lt short p) (by positivity)
      _ = 2 ^ (53 + p - q) := (zpow_sub₀ two_ne_zero _ _).symm
      _ < limit := two_pow_lt_limit (by omega)

/-- A word is rounded to a multiple of some power of two up to the twelfth. -/
theorem atScale_toFloat (n : UInt64) : ∃ p ≤ 12, AtScale p n.toFloat.toModel.unpack := by
  have short : n.toNat.log2 < 64 := by
    rcases n.toNat.eq_zero_or_pos with zero | positive
    · rw [zero]
      decide
    · exact (Nat.log2_lt positive.ne').mpr n.toNat_lt
  exact atScale_ofNat short

/-- A natural number times or over a power of ten that is a float. -/
theorem isFinite_powersOfTen (n : UInt64) {x : Float}
    (mem : x ∈ Float.exactlyRepresentablePowersOfTen.toList) :
    (n.toFloat * x).toModel.isFinite = true ∧ (n.toFloat / x).toModel.isFinite = true := by
  obtain ⟨p, small, scaled⟩ := atScale_toFloat n
  obtain ⟨least, greatest⟩ := exponent_powersOfTen x mem
  have low : @unpackExponent .binary64 x.toModel.toBits.toBitVec ≠ 0#_ := by
    intro zero
    rw [zero] at least
    exact absurd least (by decide)
  have high : @unpackExponent .binary64 x.toModel.toBits.toBitVec ≠ -1#_ := by
    intro ones
    rw [ones] at greatest
    exact absurd greatest (by decide)
  obtain ⟨s, m, positive, read, short⟩ := unpack_normal low high
  have power : x.toModel.unpack = .finite s m _ positive := read
  constructor
  · show (Float.Model.pack
      (UnpackedFloat.mul .binary64 n.toFloat.toModel.unpack x.toModel.unpack)).isFinite = true
    rw [power]
    exact isFinite_mul scaled (.finite s positive short) (by omega)
  · show (Float.Model.pack
      (UnpackedFloat.div .binary64 n.toFloat.toModel.unpack x.toModel.unpack)).isFinite = true
    rw [power]
    exact isFinite_div scaled (by omega)

/-- A number that a decimal with few digits and a small power of ten spells is far below the
limit. -/
theorem mul_ten_zpow_lt_limit (short : m < 2 ^ 53) (small : e ≤ 22) : m * 10 ^ e < limit := by
  have below : (m : ℚ) ≤ 2 ^ 53 := by exact_mod_cast short.le
  have power : (10 : ℚ) ^ e ≤ 2 ^ 88 :=
    calc (10 : ℚ) ^ e ≤ 10 ^ (22 : Int) := zpow_le_zpow_right₀ (by norm_num) small
      _ ≤ 2 ^ 88 := by norm_num
  calc (m : ℚ) * 10 ^ e ≤ 2 ^ 53 * 2 ^ 88 := mul_le_mul below power (by positivity) (by positivity)
    _ = 2 ^ (141 : Int) := by norm_num
    _ < limit := two_pow_lt_limit (by decide)

/-- **The float of a decimal number.** -/
theorem settles_float (m : Nat) (e : Int) :
    Settles .positive (m * 10 ^ e) (Float.ofScientific m (e < 0) e.natAbs).toModel := by
  unfold Float.ofScientific
  split
  next fast =>
    have below : (m : ℚ) * 10 ^ e < limit := mul_ten_zpow_lt_limit fast.1 (by omega)
    refine ⟨fun large => absurd below large.not_gt, fun _ => ?_⟩
    have inside : e.natAbs < Float.exactlyRepresentablePowersOfTen.size := Nat.lt_succ_of_le fast.2
    obtain ⟨product, quotient⟩ :=
      isFinite_powersOfTen m.toUInt64 (Array.mem_toList_iff.mpr (Array.getElem_mem inside))
    split
    · exact quotient
    · exact product
  next =>
    have power : (if decide (e < 0) then Int.negOfNat e.natAbs else Int.ofNat e.natAbs) = e := by
      simp only [decide_eq_true_eq, Int.negOfNat_eq, Int.ofNat_eq_natCast]
      split <;> omega
    show Settles _ _ (Float.Model.ofScientific m (if decide (e < 0) then Int.negOfNat e.natAbs
      else Int.ofNat e.natAbs))
    rw [power]
    exact settles_ofScientific m e

/-! ### Signs -/

theorem isFinite_neg (scaled : AtScale p u) (top : p ≤ 971) :
    (Float.Model.pack u.neg).isFinite = true := by
  cases scaled with
  | zero t => exact isFinite_pack_zero (-t)
  | finite t positive =>
    obtain ⟨q, -, again⟩ := atScale_pack (s := -t) (h := positive) top
    exact again.isFinite

/-- A sign makes nothing infinite. -/
theorem isFinite_withSign (negative : Bool) {r : Float} (finite : r.isFinite = true) :
    (withSign negative r).isFinite = true := by
  cases negative with
  | false => exact finite
  | true =>
    obtain ⟨p, top, scaled⟩ := atScale_of_isFinite (b := r.toModel.toBits.toBitVec) finite
    exact isFinite_neg scaled top

end ScriptHost.Binary64
