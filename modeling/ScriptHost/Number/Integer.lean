/-!
# Integers

The integers of a script are the 64-bit two's complement numbers. Arithmetic on them is done on
mathematical integers and brought back by one of two rules: `Integer.ofInt?` refuses a number
outside the range, and `Integer.saturate` moves it to the nearest end. Nothing else narrows a
number, so every wrap and every saturation of the language is one of these two names at the place
where it happens.

`ofInt?_toInt` and `toInt_of_ofInt?` say that the first rule loses nothing and accepts nothing else.
-/

set_option autoImplicit false

namespace ScriptHost

/-- A script integer: a 64-bit two's complement number. -/
abbrev Integer := Int64

namespace Integer

/-- The least integer, `- 2 ^ 63`, as a mathematical integer. -/
def least : Int := -9223372036854775808

/-- The greatest integer, `2 ^ 63 - 1`, as a mathematical integer. -/
def greatest : Int := 9223372036854775807

/-- The integer equal to `i`, if there is one. -/
def ofInt? (i : Int) : Option Integer :=
  if least ≤ i ∧ i ≤ greatest then some (Int64.ofInt i) else none

/-- The integer nearest to `i`. -/
def saturate (i : Int) : Integer :=
  if i < least then Int64.ofInt least else if greatest < i then Int64.ofInt greatest
    else Int64.ofInt i

/-- The integer `i` as decimal text: an optional minus sign and digits without leading zeros. -/
def text (i : Integer) : String := toString i.toInt

/-! ## The range rule -/

theorem least_le_toInt (i : Integer) : least ≤ i.toInt := Int64.le_toInt i

theorem toInt_le_greatest (i : Integer) : i.toInt ≤ greatest := Int64.toInt_le i

theorem toInt_ofInt_of_mem {i : Int} (lo : least ≤ i) (hi : i ≤ greatest) :
    (Int64.ofInt i).toInt = i := by
  apply Int64.toInt_ofInt_of_le
  · simpa [least] using lo
  · simp only [greatest] at hi; omega

/-- **No loss.** An integer is recovered from its mathematical value. -/
@[simp] theorem ofInt?_toInt (i : Integer) : ofInt? i.toInt = some i := by
  simp [ofInt?, least_le_toInt, toInt_le_greatest, Int64.ofInt_toInt]

/-- **No junk.** A number is accepted only as itself. -/
theorem toInt_of_ofInt? {i : Int} {n : Integer} (h : ofInt? i = some n) : n.toInt = i := by
  unfold ofInt? at h
  split at h
  · rename_i hr; cases h; exact toInt_ofInt_of_mem hr.1 hr.2
  · cases h

end Integer

end ScriptHost
