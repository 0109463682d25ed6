import ScriptHost.Heap.Assign
import ScriptHost.Heap.Container

/-!
# Stepping

A value is stepped by adding a multiple of an amount to it in place. Integers and Booleans step in
exact arithmetic and refuse a result out of range, reals and texts step as reals, and an array steps
every element in turn. The amount is read anew for each element.
-/

set_option autoImplicit false

namespace ScriptHost.HeapM

/-- The integer `i`, or the fault of an overflow. -/
def inRange (i : Int) : Except Fault Integer :=
  match Integer.ofInt? i with
  | some n => .ok n
  | none => .error .integerOverflow

/-- The sign of a step. -/
def stepSign (up : Bool) : Int := if up then 1 else -1

/-- Steps a value, down to so many levels. There are more of them than a value is deep, so level 0
is not come to (`Heap.WellFormed.step_eq`). -/
def stepTo (up : Bool) (amount : Handle) : Nat → Handle → HeapM Unit
  | 0, _ => return ()
  | n + 1, target => do
    match ← dataOf target with
    | .leaf (.boolean _) | .leaf (.integer _ _) =>
      let delta ← of (inRange (stepSign up * (← asInteger amount).toInt))
      let next ← of (inRange ((← asInteger target).toInt + delta.toInt))
      assign target (← newLeaf (.integer next none))
    | .leaf (.real _ _) | .leaf (.string _) =>
      let held ← asReal target
      let next := held + (← asReal amount) * .ofFloat (if up then 1.0 else -1.0)
      assign target (← newLeaf (.real next none))
    | .array s => s.items.forM (stepTo up amount n)
    | d => throw (.notSteppable d.kind)

/-- Adds the amount to a value in place, or subtracts it. -/
def step (up : Bool) (target amount : Handle) : HeapM Unit := do
  stepTo up amount (← look (·.levels)) target

end ScriptHost.HeapM
