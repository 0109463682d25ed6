import ScriptHost.Fault

/-!
# Bounds and range policies

A number can be bound to a closed range, together with a policy for what happens to a number outside
of it: it is refused, moved to the nearest end, or rolled over by whole widths of the range.
`Bounds` carries the order of its ends, so every rule below can count on a range that is not empty.

The integer rules are exact: widths are counted in mathematical integers, where the widest range has
`2 ^ 64` members.
-/

set_option autoImplicit false

namespace ScriptHost

/-- What happens to an index or a number outside of its range. -/
inductive RangePolicy where
  | refuse
  | cap
  | rollover
deriving DecidableEq, Repr

namespace RangePolicy

/-- The code of a policy. -/
def code : RangePolicy → Nat
  | .refuse => 0
  | .cap => 1
  | .rollover => 2

/-- The policy of a code. -/
def ofCode? (n : Int) : Option RangePolicy :=
  if n = 0 then some .refuse else if n = 1 then some .cap
    else if n = 2 then some .rollover else none

/-- The name of a policy. -/
def name : RangePolicy → String
  | .refuse => "Error"
  | .cap => "Cap"
  | .rollover => "Rollover"

/-- The policy of a given name. -/
def ofName? (s : String) : Option RangePolicy := [refuse, cap, rollover].find? (·.name == s)

instance : Inhabited RangePolicy := ⟨.refuse⟩

end RangePolicy

/-- A closed range with its policy. -/
structure Bounds (α : Type) [LE α] where
  least : α
  greatest : α
  policy : RangePolicy
  ordered : least ≤ greatest

namespace Bounds

/-! ## Integers -/

/-- The range from `least` to `greatest`. -/
def ofIntegers (least greatest : Integer) (policy : RangePolicy) : Except Fault (Bounds Integer) :=
  if h : least ≤ greatest then .ok ⟨least, greatest, policy, h⟩
    else .error (.integerBoundsInverted least greatest)

/-- The number of integers in the range. -/
def width (b : Bounds Integer) : Int := b.greatest.toInt - b.least.toInt + 1

/-- Whether the range holds `v`. -/
def holds (b : Bounds Integer) (v : Integer) : Bool := b.least ≤ v && v ≤ b.greatest

/-- Brings an integer into the range as the policy says. -/
def fit (b : Bounds Integer) (v : Integer) : Except Fault Integer :=
  if b.holds v then .ok v
  else
    match b.policy with
    | .refuse => .error (.integerOutOfBounds v b.least b.greatest)
    | .cap => .ok (if v < b.least then b.least else b.greatest)
    | .rollover => .ok (Int64.ofInt (b.least.toInt + (v.toInt - b.least.toInt) % b.width))

/-- The number a fresh variable of the range starts at: zero if the range holds it. -/
def start (b : Bounds Integer) : Integer := if b.holds 0 then 0 else b.least

/-! ## Reals -/

/-- The range from `least` to `greatest`; a NaN is no end of a range. -/
def ofReals (least greatest : Float) (policy : RangePolicy) : Except Fault (Bounds Float) :=
  if h : least ≤ greatest then .ok ⟨least, greatest, policy, h⟩
    else .error (.realBoundsInverted least greatest)

/-- Whether the range holds `v`. -/
def holdsReal (b : Bounds Float) (v : Float) : Bool := b.least ≤ v && v ≤ b.greatest

/-- Brings a real into the range as the policy says. No policy can place a NaN. A range of no width,
and an infinite number, roll over to the least end. -/
def fitReal (b : Bounds Float) (v : Float) : Except Fault Float :=
  if v.isNaN then .error (.realOutOfBounds v b.least b.greatest)
  else if b.holdsReal v then .ok v
  else
    match b.policy with
    | .refuse => .error (.realOutOfBounds v b.least b.greatest)
    | .cap => .ok (if v < b.least then b.least else b.greatest)
    | .rollover =>
      let width := b.greatest - b.least
      if width ≤ 0 || !v.isFinite then .ok b.least
        else .ok (b.least + Binary64.modulus (v - b.least) width)

/-- The number a fresh variable of the range starts at: zero if the range holds it. -/
def startReal (b : Bounds Float) : Float := if b.holdsReal 0 then 0 else b.least

end Bounds

end ScriptHost
