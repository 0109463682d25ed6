/-!
# Equality within rounding error

Two finite floats that differ by at most two units of rounding, relative to the larger magnitude and
never to less than one, count as equal. Infinities are equal to themselves only, and a NaN is equal
to nothing.
-/

set_option autoImplicit false

namespace ScriptHost.Tolerance

/-- The distance from one to the next float. -/
def epsilon : Float := Float.ofBits 0x3cb0000000000000

/-- The tolerance at magnitude one. -/
def unit : Float := 2.0 * epsilon

/-- The larger of two magnitudes that are not NaN. -/
def larger (a b : Float) : Float := if a < b then b else a

/-- Equality up to rounding error. -/
def equal (a b : Float) : Bool :=
  if a == b then true
  else if a.isFinite && b.isFinite then (a - b).abs ≤ unit * larger (larger a.abs b.abs) 1.0
  else false

/-- Zero up to rounding error. -/
def isZero (r : Float) : Bool := r.abs ≤ unit

end ScriptHost.Tolerance
