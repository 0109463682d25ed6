import ScriptHost.Proofs.IntegerText
import ScriptHost.Proofs.RealText
import ScriptHost.Proofs.Number.Rounding

/-!
# Numerals past the range of the reals

A text that begins with a numeral is always read as a real. If the number is too large for one, the
real is an infinity (`Decimal.toFloat_of_limit_le`); it is finite for all other numbers, however
many digits they are written with (`Decimal.toFloat_of_lt_limit`). Integers are read otherwise: a
numeral that is no integer of the language is refused.
-/

set_option autoImplicit false

namespace ScriptHost.Numeral

open Binary64

/-! ## Decimals as floats -/

namespace Decimal

variable {d : Decimal}

theorem abs_number (d : Decimal) : |d.number| = d.mantissa * 10 ^ d.power := by
  have positive : (0 : ℚ) ≤ d.mantissa * 10 ^ d.power := by positivity
  cases negative : d.negative <;> simp [number, negative, abs_of_nonneg positive]

/-- The limit for decimals that are whole numbers. -/
theorem limit_le_whole_iff (negative : Bool) (m k : Nat) :
    limit ≤ |(⟨negative, m, k⟩ : Decimal).number| ↔ 2 ^ 54 - 1 ≤ m * 10 ^ k / 2 ^ 970 := by
  have whole : |(⟨negative, m, k⟩ : Decimal).number| = (m * 10 ^ k : Nat) * 2 ^ (0 : Int) := by
    rw [abs_number, zpow_natCast, zpow_zero, mul_one]
    push_cast
    rfl
  have step : ((970 : Int) - 0).toNat = 970 := by decide
  rw [whole, limit_le_iff (by decide), step]

/-- **A decimal below the limit** is rounded to a finite float. -/
theorem toFloat_of_lt_limit (small : |d.number| < limit) : d.toFloat.isFinite = true := by
  rw [d.abs_number] at small
  exact isFinite_withSign d.negative ((settles_float d.mantissa d.power).finite small)

/-- **A decimal from the limit on** is rounded to an infinity. -/
theorem toFloat_of_limit_le (large : limit ≤ |d.number|) :
    d.toFloat = withSign d.negative infinity := by
  rw [d.abs_number] at large
  have magnitude : Float.ofScientific d.mantissa (d.power < 0) d.power.natAbs = infinity :=
    congrArg (fun x : Float.Model => (⟨x⟩ : Float))
      ((settles_float d.mantissa d.power).infinite large)
  rw [toFloat, magnitude]
  rfl

end Decimal

theorem isFinite_withSign_infinity (negative : Bool) :
    (withSign negative infinity).isFinite = false := by cases negative <;> rfl

/-! ## Reading -/

variable {s : String} {l : Literal}

theorem readReal_of_longest (longest : Longest realText l.text (Text.unindented s.toList)) : 
    readReal s = .ok (.ofFloat l.decimal.toFloat) := by
  simp only [readReal, real?, decimal?_of_longest longest, Option.map_some]

theorem readReal_eq_error_iff {f : Fault} :
    readReal s = .error f ↔ f = .unreadableReal s ∧ decimal? s = none := by
  cases read : decimal? s <;> simp [readReal, real?, read, eq_comm]

/-- A numeral that is no integer of the language is refused. -/
theorem readInteger_of_outside {p : IntegerParts} (written : p.text = s.toList)
    (maximal : p.Maximal) (outside : p.number < Integer.least ∨ Integer.greatest < p.number) :
    readInteger s = .error (.unreadableInteger s) := by
  have none : integer? s = none := by
    rw [IntegerParts.integer?_of_parts maximal written,
      Integer.ofInt?_eq_none_iff.mpr outside, ite_self]
  simp only [readInteger, none]

/-- **A real is read also where the number is too large for one.** The conversion of a text to a
real fails exactly if no numeral stands at its start, and then it is an illegal cast. Otherwise it
gives the real for the longest numeral there, which is finite exactly if the number is below the
limit, and from the limit on an infinity of its sign. The conversion to an integer is an illegal
cast where the number is too large. -/
theorem real_text_overflow (s : String) :
    (∀ f, (.leaf (.string s) : Data Handle).asReal = .error f ↔
      f = .unreadableReal s ∧ ∀ w ∈ realText, ¬ w <+: Text.unindented s.toList) ∧
    (∀ r, (.leaf (.string s) : Data Handle).asReal = .ok r →
      ∃ l : Literal, Longest realText l.text (Text.unindented s.toList)) ∧
    (∀ l : Literal, Longest realText l.text (Text.unindented s.toList) →
      ∃ r, (.leaf (.string s) : Data Handle).asReal = .ok r ∧
      (r.toFloat.isFinite = true ↔ |l.number| < limit) ∧
        (limit ≤ |l.number| → r = .ofFloat (withSign l.sign.negative infinity))) ∧
    (∀ p : IntegerParts, p.text = s.toList → p.Maximal → p.number < Integer.least ∨
      Integer.greatest < p.number →
      (.leaf (.string s) : Data Handle).asInteger = .error (.unreadableInteger s)) ∧
    (Fault.unreadableReal s).kind = .illegalCast ∧
      (Fault.unreadableInteger s).kind = .illegalCast := by
  refine ⟨?_, ?_, ?_,
    fun p written maximal outside => readInteger_of_outside written maximal outside, rfl, rfl⟩
  · intro f
    rw [← decimal?_eq_none_iff]
    exact readReal_eq_error_iff
  · intro r read
    apply exists_longest_of_read
    intro none
    have failed : readReal s = .error (.unreadableReal s) := readReal_eq_error_iff.mpr ⟨rfl, none⟩
    cases failed.symm.trans read
  · intro l longest
    have infinite : limit ≤ |l.number| → l.decimal.toFloat = withSign l.sign.negative infinity := by
      rw [← l.number_decimal]
      exact Decimal.toFloat_of_limit_le
    refine ⟨_, readReal_of_longest longest, ?_,
      fun large => congrArg Double.ofFloat (infinite large)⟩
    rw [Double.toFloat_ofFloat]
    constructor
    · intro finite
      by_contra large
      rw [infinite (not_lt.mp large), isFinite_withSign_infinity] at finite
      cases finite
    · rw [← l.number_decimal]
      exact Decimal.toFloat_of_lt_limit

/-- Two numerals of seventeen digits on either side of the limit. -/
theorem real_text_overflow_edge :
    (∃ r, (.leaf (.string "17976931348623158e292") : Data Handle).asReal = .ok r ∧
      r.toFloat.isFinite = true) ∧
    (.leaf (.string "-17976931348623159e292") : Data Handle).asReal =
      .ok (.ofFloat (-infinity)) := by
  let power : Exponent :=
    ⟨'e', .absent, "292".toList, .inl rfl, List.all_eq_true.mp (by decide), by decide⟩
  constructor
  · let l : Literal := ⟨.absent, "17976931348623158".toList, none, some power,
      List.all_eq_true.mp (by decide), by decide⟩
    have complete : l.Complete [] := ⟨breaks_nil, nofun, nofun⟩
    obtain ⟨-, -, reads, -⟩ := real_text_overflow "17976931348623158e292"
    obtain ⟨r, read, finite, -⟩ := reads l (Literal.complete_iff_longest.mp complete)
    refine ⟨r, read, finite.mpr (not_le.mp ?_)⟩
    rw [← l.number_decimal]
    exact mt (Decimal.limit_le_whole_iff false 17976931348623158 292).mp (by decide +kernel)
  · let l : Literal := ⟨.minus, "17976931348623159".toList, none, some power,
      List.all_eq_true.mp (by decide), by decide⟩
    have complete : l.Complete [] := ⟨breaks_nil, nofun, nofun⟩
    obtain ⟨-, -, reads, -⟩ := real_text_overflow "-17976931348623159e292"
    obtain ⟨r, read, -, infinite⟩ := reads l (Literal.complete_iff_longest.mp complete)
    have large : limit ≤ |l.number| := by
      rw [← l.number_decimal]
      exact (Decimal.limit_le_whole_iff true 17976931348623159 292).mpr (by decide +kernel)
    rw [read, infinite large]
    rfl

/-- Not every text is refused or read as a finite real. -/
theorem real_text_overflow_accepted : ¬ ∀ s : String,
    (∃ f, (.leaf (.string s) : Data Handle).asReal = .error f ∧ f.kind = .illegalCast) ∨
    ∃ r, (.leaf (.string s) : Data Handle).asReal = .ok r ∧ r.toFloat.isFinite = true := by
  intro law
  have large : limit ≤ |(⟨false, 1, 400⟩ : Decimal).number| :=
    (Decimal.limit_le_whole_iff false 1 400).mpr (by decide +kernel)
  have decimal : decimal? "1e400" = some ⟨false, 1, 400⟩ := by decide
  have read : (.leaf (.string "1e400") : Data Handle).asReal = .ok (.ofFloat infinity) := by
    show readReal "1e400" = .ok (.ofFloat infinity)
    simp only [readReal, real?, decimal, Option.map_some, Decimal.toFloat_of_limit_le large]
    rfl
  rcases law "1e400" with ⟨f, failed, -⟩ | ⟨r, ok, finite⟩
  · rw [read] at failed
    cases failed
  · rw [read] at ok
    cases ok
    exact absurd finite (by decide)

end ScriptHost.Numeral
