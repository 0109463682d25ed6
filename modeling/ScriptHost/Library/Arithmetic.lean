import ScriptHost.Heap.Compare
import ScriptHost.Heap.Step
import ScriptHost.Number.Logarithm
import ScriptHost.Program.Routine

/-!
# Arithmetic of the library

The mathematical routines as functions of numbers, each with the fault for arguments it is not
defined at, and the choice of the least or the greatest among values.
-/

set_option autoImplicit false

namespace ScriptHost.Arithmetic

/-- The magnitude of an integer; the least one has none among the integers. -/
def magnitude (i : Integer) : Except Fault Integer :=
  match Integer.ofInt? i.toInt.natAbs with
  | some n => .ok n
  | none => .error .absoluteOverflow

/-- The square root of a number that is not negative. -/
def root (r : Double) : Except Fault Double :=
  if r.toFloat < 0 then .error (.negativeRoot r.toFloat) else .ok (r.map Float.sqrt)

/-- A number that has a logarithm. -/
def positive (r : Float) : Except Fault Float :=
  if r ≤ 0 || r.isNaN then .error (.logarithmUndefined r) else .ok r

/-- The natural logarithm. -/
def ln (r : Float) : Except Fault Float := do return Logarithm.natural (← positive r)

/-- The decimal logarithm. -/
def log (r : Float) : Except Fault Float := do return Logarithm.common (← positive r)

/-- A base of logarithms: a positive number other than one. -/
def logarithmBase (r : Float) : Except Fault Float := do
  let base ← positive r
  if Tolerance.equal base 1.0 then .error .logarithmBaseOne else .ok base

/-- The quotient, rounded toward zero. -/
def quotient (x y : Integer) : Except Fault Integer :=
  if y.toInt = 0 then .error .divisionByZero
  else
    match Integer.ofInt? (x.toInt.tdiv y.toInt) with
    | some q => .ok q
    | none => .error .quotientOverflow

/-- The remainder, with the sign of the dividend. -/
def remainder (x y : Integer) : Except Fault Integer :=
  if y.toInt = 0 then .error .modulusByZero else .ok (Int64.ofInt (x.toInt.tmod y.toInt))

/-- Whether a real has a property. -/
def holds : RealTest → Float → Bool
  | .finite, r => r.isFinite
  | .infinite, r => r.isInf
  | .nan, r => r.isNaN
  | .normal, r => Binary64.isNormal r

/-- A real rounded to a whole number; the nearest rule moves a half away from zero. -/
def rounded : Rounding → Float → Float
  | .down, r => r.floor
  | .up, r => r.ceil
  | .nearest, r => r.round

/-- The first of the values that no later one beats, starting from the best so far. -/
def extreme (h : Heap) (keep : Ordering) (best : Handle) : List Handle → Except Fault Handle
  | [] => .ok best
  | v :: vs => do
    if (← h.compare v best) == keep then extreme h keep v vs else extreme h keep best vs

end ScriptHost.Arithmetic
