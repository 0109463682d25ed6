import ScriptHost.Number.Binary64

/-!
# Logarithms, correctly rounded

The natural and the decimal logarithm of a positive float, as the float nearest to the mathematical
value. The value is computed in fixed point with `precision` places after the binary point: a number
`f · 2 ^ n` with `1 ≤ f < 2` has the logarithm `n · ln 2 + 2 · artanh ((f - 1) / (f + 1))`, and the
series of `artanh` gains more than three places a term because its argument is at most a third. The
error stays below `2 ^ -170`, far below the distance that the logarithm of a float keeps from the
middle between two floats.
-/

set_option autoImplicit false

namespace ScriptHost.Logarithm

/-- Places after the binary point. -/
def precision : Nat := 192

/-- One, in fixed point. -/
def one : Nat := 1 <<< precision

/-- The tail `∑ power / odd + power · square / (odd + 2) + …` of the series, of so many terms. -/
def series (square : Nat) : Nat → Nat → Nat → Nat
  | 0, _, _ => 0
  | terms + 1, odd, power => power / odd + series square terms (odd + 2) (power * square / one)

/-- `artanh z` for a fixed-point `z` that is at most a third. -/
def artanh (z : Nat) : Nat := series (z * z / one) 68 1 z

/-- The logarithm of a fixed-point number from one up to two. -/
def ofFraction (f : Nat) : Nat := 2 * artanh ((f - one) * one / (f + one))

/-- The logarithm of two. -/
def two : Nat := ofFraction (2 * one)

/-- The logarithm of `mantissa · 2 ^ exponent` in fixed point, for a mantissa that is not zero. -/
def fixed (mantissa : Nat) (exponent : Int) : Int :=
  let length := mantissa.log2
  let fraction := (mantissa * one) >>> length
  (exponent + length) * (two : Int) + ofFraction fraction

/-- The float nearest to a fixed-point number. -/
def toFloat (n : Int) : Float := Binary64.nearest ⟨n < 0, n.natAbs, -(precision : Int)⟩

/-- The natural logarithm of a positive float. -/
def natural (r : Float) : Float :=
  if r.isInf then r
  else
    let p := Binary64.parts r
    toFloat (fixed p.mantissa p.exponent)

/-- The decimal logarithm of a positive float. -/
def common (r : Float) : Float :=
  if r.isInf then r
  else
    let p := Binary64.parts r
    toFloat (Int.tdiv (fixed p.mantissa p.exponent * one) (fixed 10 0))

end ScriptHost.Logarithm
