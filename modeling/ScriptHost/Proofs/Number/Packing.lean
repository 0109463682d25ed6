import Mathlib
import ScriptHost.Number.Double

/-!
# Reading the bits of a float and writing them back

The value of a float is kept as bits, and arithmetic reads them (`unpack`), computes, and writes the
result (`pack`). Reading and writing back changes nothing (`pack_unpack`), so adding a positive
zero, which leaves every number but the negative zero alone, leaves the bits of every float but the
negative zero alone (`toBits_add_zero`).

A `Double` has bits that a float has not, those of the NaNs. Adding a positive zero to one takes the
negative zero to the positive one, makes a NaN quiet, and changes no other bits
(`Double.bits_add_zero`).
-/

set_option autoImplicit false

namespace ScriptHost.Binary64

open Float.Model Float.Model.UnpackedFloat

/-- The sign, the exponent and the mantissa of some bits put together again, the last two under
whatever names a branch of `unpack` has given them. -/
theorem packComponents_of_unpack {b : BitVec Format.binary64.numBits}
    {exponent : BitVec Format.binary64.exponentBits}
    {mantissa : BitVec Format.binary64.mantissaBitsWithoutImplicit}
    (stored : unpackExponent b = exponent) (digits : unpackMantissa b = mantissa) :
    packComponents .binary64 (Sign.ofBitVec (unpackSign b)) exponent mantissa = b := by
  have sign : ∀ c : BitVec 1, (Sign.ofBitVec c).toBitVec = c := by decide
  subst stored digits
  rw [packComponents, sign]
  ext i hi
  simp only [unpackSign, unpackExponent, unpackMantissa, BitVec.extractLsb]
  grind

/-- A mantissa read with its leading bit. -/
theorem toNat_append_mantissa (mantissa : BitVec 52) :
    (1#1 ++ mantissa).toNat = leadingBit + mantissa.toNat := by
  rw [BitVec.toNat_append, ← Nat.shiftLeft_add_eq_or_of_lt mantissa.isLt]
  rfl

theorem log2_append_mantissa (mantissa : BitVec 52) : (1#1 ++ mantissa).toNat.log2 = 52 := by
  have value := toNat_append_mantissa mantissa
  have small : mantissa.toNat < 4503599627370496 := mantissa.isLt
  rw [leadingBit] at value
  have above : 52 ≤ (1#1 ++ mantissa).toNat.log2 := (Nat.le_log2 (by omega)).2 (by omega)
  have below : (1#1 ++ mantissa).toNat.log2 < 53 := (Nat.log2_lt (by omega)).2 (by omega)
  omega

/-- **Reading bits and writing them back changes nothing**, as long as a NaN has the bits that are
written for one. -/
theorem pack_unpack {b : BitVec Format.binary64.numBits} (valid : Format.binary64.Valid b) :
    UnpackedFloat.pack .binary64 (unpack .binary64 b) = b := by
  have bias : ((Format.binary64.exponentBias : Nat) : Int) = 1023 := rfl
  have width : ((Format.binary64.mantissaBitsWithoutImplicit : Nat) : Int) = 52 := rfl
  fun_cases unpack Format.binary64 b with
  | case1 mantissa exponent signBit sign ones zero => exact packComponents_of_unpack ones zero
  | case2 mantissa exponent ones nonzero => exact (valid.eq_packedNaN ones nonzero).symm
  | case3 mantissa exponent signBit sign _ zeros zero => exact packComponents_of_unpack zeros zero
  | case4 mantissa exponent place signBit sign _ zeros nonzero =>
    -- a subnormal float is read at the exponent after the stored one, and its mantissa is too short
    -- for a normal one
    have read : place + 1 + Format.binary64.exponentBias +
        Format.binary64.mantissaBitsWithoutImplicit = 1 := by
      have stored : exponent.toNat = 0 := congrArg BitVec.toNat zeros
      omega
    have short : ¬mantissa.toNat.log2 + 1 = Format.binary64.mantissaBits := by
      have positive : mantissa.toNat ≠ 0 := fun none => nonzero (BitVec.eq_of_toNat_eq none)
      have below : mantissa.toNat.log2 < 52 := (Nat.log2_lt positive).2 mantissa.isLt
      show ¬mantissa.toNat.log2 + 1 = 53
      omega
    simp only [UnpackedFloat.pack, read, if_neg short]
    apply packComponents_of_unpack zeros
    rw [BitVec.ofNat_toNat, BitVec.setWidth_eq]
  | case5 mantissa exponent place signBit sign notOnes notZeros =>
    -- a normal float is read at the stored exponent, and its leading bit is not written back
    have read : place + Format.binary64.exponentBias + Format.binary64.mantissaBitsWithoutImplicit =
        exponent.toNat := by omega
    have inside : ¬2 ^ Format.binary64.exponentBits ≤ exponent.toNat + 1 := by
      have range : exponent.toNat < 2048 := exponent.isLt
      have below : exponent.toNat ≠ 2047 := fun top => notOnes (BitVec.eq_of_toNat_eq top)
      show ¬2048 ≤ exponent.toNat + 1
      omega
    have long : (1#1 ++ mantissa).toNat.log2 + 1 = Format.binary64.mantissaBits :=
      congrArg (· + 1) (log2_append_mantissa mantissa)
    simp only [UnpackedFloat.pack, read, Int.toNat_natCast, if_neg inside, if_pos long]
    apply packComponents_of_unpack
    · rw [BitVec.ofNat_toNat, BitVec.setWidth_eq]
    · apply BitVec.eq_of_toNat_eq
      have small : mantissa.toNat < 4503599627370496 := mantissa.isLt
      rw [BitVec.toNat_ofNat, toNat_append_mantissa]
      show mantissa.toNat = (4503599627370496 + mantissa.toNat) % 4503599627370496
      rw [Nat.add_mod_left, Nat.mod_eq_of_lt small]

/-- A number that is no zero is its own sum with a positive zero. -/
theorem add_zero_eq {x : UnpackedFloat} (nonzero : ∀ sign, x ≠ .zero sign) :
    UnpackedFloat.add .binary64 x (.zero .positive) = x := by
  cases x with
  | zero sign => exact absurd rfl (nonzero sign)
  | notANumber | infinity | finite => rfl

theorem toBits_eq_pack (r : Float) :
    r.toBits = .ofBitVec (UnpackedFloat.pack .binary64 r.toModel.unpack) :=
  congrArg UInt64.ofBitVec (pack_unpack r.toModel.valid).symm

/-- There is one float that is no number. -/
theorem toBits_of_isNaN {r : Float} (nan : r.isNaN = true) : r.toBits = 0x7ff8000000000000 := by
  cases read : r.toModel.unpack with
  | notANumber =>
    rw [toBits_eq_pack, read]
    decide
  | zero | finite | infinity =>
    simp [Float.isNaN, Float.Model.isNaN, read, UnpackedFloat.isNaN] at nan

/-- A float is the one with its bits. -/
theorem ofBits_toBits (r : Float) : Float.ofBits r.toBits = r := by
  obtain ⟨⟨bits, valid⟩⟩ := r
  have same : UInt64.ofBitVec (UnpackedFloat.pack .binary64 (unpack .binary64 bits.toBitVec)) =
      bits :=
    congrArg UInt64.ofBitVec (pack_unpack valid)
  simp only [Float.ofBits, Float.toBits, Float.Model.ofBits, Float.Model.pack, same]

/-- The bits of a number are those it is read from. -/
theorem toBits_ofBits {b : UInt64} (number : (Float.ofBits b).isNaN = false) :
    (Float.ofBits b).toBits = b := by
  have valid : Format.binary64.Valid b.toBitVec := by
    refine ⟨fun ones nonzero => absurd number ?_⟩
    have nan : unpack .binary64 b.toBitVec = .notANumber := by
      simp [UnpackedFloat.unpack, ones, nonzero]
    simp only [Float.isNaN, Float.ofBits, Float.Model.isNaN, Float.Model.ofBits, nan]
    decide
  exact congrArg UInt64.ofBitVec (pack_unpack valid)

/-- **Folding the zeros.** Adding a positive zero turns the negative zero into it and keeps the bits
of all else. -/
theorem toBits_add_zero (r : Float) :
    (r + 0.0).toBits = if r.toBits = 0x8000000000000000 then 0 else r.toBits := by
  have sum : (r + 0.0).toBits =
      .ofBitVec (UnpackedFloat.pack .binary64
        (UnpackedFloat.add .binary64 r.toModel.unpack (.zero .positive))) :=
    rfl
  by_cases zero : ∃ sign, r.toModel.unpack = .zero sign
  · obtain ⟨sign, read⟩ := zero
    rw [sum, toBits_eq_pack r, read]
    cases sign <;> decide
  · have other : ¬r.toBits = 0x8000000000000000 := by
      intro bits
      have read : r.toModel.unpack = unpack .binary64 r.toBits.toBitVec := rfl
      rw [bits] at read
      exact zero ⟨.negative, read⟩
    have kept := add_zero_eq fun sign read => zero ⟨sign, read⟩
    rw [if_neg other, sum, kept, toBits_eq_pack]

theorem isNaN_add_zero (r : Float) : (r + 0.0).isNaN = r.isNaN := by
  have sum := toBits_add_zero r
  split at sum
  next minus =>
    rw [← ofBits_toBits (r + 0.0), sum, ← ofBits_toBits r, minus]
    decide
  next => rw [← ofBits_toBits (r + 0.0), sum, ofBits_toBits]

end ScriptHost.Binary64

namespace ScriptHost.Double

open Binary64

/-- A computed number is the number that its bits stand for. -/
@[simp] theorem toFloat_ofFloat (r : Float) : (ofFloat r).toFloat = r := by
  cases nan : r.isNaN with
  | true =>
    -- there is one float that is no number
    rw [← ofBits_toBits r, toBits_of_isNaN nan]
    decide
  | false =>
    rw [ofFloat, nan]
    exact ofBits_toBits r

/-- A real as computing takes it: a NaN is quiet. -/
def settled (x : Double) : Double := if x.isNaN then x.quiet else x

/-- The bits of a real, with those of the negative zero taken for those of zero. -/
def foldedBits (x : Double) : UInt64 := if x.bits = 0x8000000000000000 then 0 else x.bits

/-- A NaN without its quiet bit, which computing sets. -/
def isSignaling (x : Double) : Bool := x.isNaN && x.bits &&& quietBit == 0

/-- Computing takes a real as it is unless it is a signaling NaN. -/
theorem settled_of_not_signaling {x : Double} (steady : x.isSignaling = false) : x.settled = x := by
  cases nan : x.isNaN with
  | false => simp only [settled, nan, Bool.false_eq_true, if_false]
  | true =>
    simp only [isSignaling, nan, Bool.true_and, beq_eq_false_iff_ne, ne_eq] at steady
    have power : quietBit.toBitVec = BitVec.twoPow 64 51 := by decide
    have bit : x.bits.toBitVec.getLsbD 51 = true := by
      by_contra clear
      apply steady
      apply UInt64.eq_of_toBitVec_eq
      rw [UInt64.toBitVec_and, power, BitVec.and_twoPow, if_neg clear]
      rfl
    have whole : x.bits ||| quietBit = x.bits := by
      apply UInt64.eq_of_toBitVec_eq
      rw [UInt64.toBitVec_or, power]
      ext i hi
      grind
    rw [settled, nan, if_pos rfl, quiet, whole]

/-- **Adding zero** to a real folds the negative zero into the positive one and makes a NaN
quiet. -/
theorem bits_add_zero (x : Double) : (x + 0).bits = x.settled.foldedBits := by
  have zero : (0 : Double).isNaN = false := by decide
  have number : (0 : Double).toFloat = 0.0 := by decide
  have sum : x + 0 = map₂ (· + ·) x 0 := rfl
  rw [sum, map₂, settled]
  cases nan : x.isNaN with
  | true =>
    have other : x.bits ||| quietBit ≠ 0x8000000000000000 := by
      intro same
      have set : quietBit.toBitVec.getLsbD 51 = true := by decide
      have bit := congrArg (fun b : UInt64 => b.toBitVec.getLsbD 51) same
      simp only [UInt64.toBitVec_or, BitVec.getLsbD_or, set, Bool.or_true] at bit
      exact absurd bit (by decide)
    simp only [if_true, quiet, foldedBits, if_neg other]
  | false =>
    have same : x.toFloat.toBits = x.bits := toBits_ofBits nan
    have plain : (x.toFloat + 0.0).isNaN = false := by rw [isNaN_add_zero]; exact nan
    simp only [zero, number, Bool.false_eq_true, if_false, ofFloat, plain]
    rw [toBits_add_zero, same, foldedBits]

end ScriptHost.Double
