import ScriptHost.Number.Numeral
import ScriptHost.Number.Tolerance
import ScriptHost.Value.Data

/-!
# Conversion between scalars

Each scalar kind can be read as each other one. A number counts as true when it is not zero, reals
up to rounding error; a real loses its fraction when it becomes an integer; a text is read by its
beginning, or, as a Boolean, as one of two words. Contents that are no scalar convert into nothing.
-/

set_option autoImplicit false

namespace ScriptHost

/-- The two words for a Boolean. -/
def booleanText (b : Bool) : String := if b then "True" else "False"

/-- A Boolean as an integer. -/
def booleanInteger (b : Bool) : Integer := if b then 1 else 0

/-- A real without its fraction, if that is an integer of the language. -/
def wholePart (r : Float) : Except Fault Integer :=
  if r.isFinite then
    match Integer.ofInt? (Binary64.truncate r) with
    | some i => .ok i
    | none => .error (.noWholePart r)
  else .error (.noWholePart r)

/-- The Boolean that a text spells, in letters of either case. -/
def readBoolean (s : String) : Except Fault Bool :=
  if s.toLower == "true" then .ok true
  else if s.toLower == "false" then .ok false
  else .error (.unreadableBoolean s)

/-- The integer that a text begins with. -/
def readInteger (s : String) : Except Fault Integer :=
  match Numeral.integer? s with
  | some i => .ok i
  | none => .error (.unreadableInteger s)

/-- The real that a text begins with. -/
def readReal (s : String) : Except Fault Double :=
  match Numeral.real? s with
  | some r => .ok (.ofFloat r)
  | none => .error (.unreadableReal s)

namespace Data

variable {ρ : Type}

/-- The contents as a Boolean. -/
def asBoolean : Data ρ → Except Fault Bool
  | .leaf (.boolean b) => .ok b
  | .leaf (.integer i _) => .ok (i != 0)
  | .leaf (.real r _) => .ok (!Tolerance.isZero r.toFloat)
  | .leaf (.string s) => readBoolean s
  | d => .error (.cannotCast d.kind.name Kind.boolean.name)

/-- The contents as an integer. -/
def asInteger : Data ρ → Except Fault Integer
  | .leaf (.boolean b) => .ok (booleanInteger b)
  | .leaf (.integer i _) => .ok i
  | .leaf (.real r _) => wholePart r.toFloat
  | .leaf (.string s) => readInteger s
  | d => .error (.cannotCast d.kind.name Kind.integer.name)

/-- The contents as a real. -/
def asReal : Data ρ → Except Fault Double
  | .leaf (.boolean b) => .ok (.ofFloat (if b then 1 else 0))
  | .leaf (.integer i _) => .ok (.ofFloat (Float.ofInt i.toInt))
  | .leaf (.real r _) => .ok r
  | .leaf (.string s) => readReal s
  | d => .error (.cannotCast d.kind.name Kind.real.name)

/-- The contents as text. -/
def asString : Data ρ → Except Fault String
  | .leaf (.boolean b) => .ok (booleanText b)
  | .leaf (.integer i _) => .ok i.text
  | .leaf (.real r _) => .ok (Decimal.general r.toFloat)
  | .leaf (.string s) => .ok s
  | d => .error (.cannotCast d.kind.name Kind.string.name)

/-- The contents as a scalar of a given kind, free of bounds. -/
def convert (target : Kind) (d : Data ρ) : Except Fault Leaf :=
  match target with
  | .boolean => d.asBoolean.map .boolean
  | .integer => d.asInteger.map (.integer · none)
  | .real => d.asReal.map (.real · none)
  | .string => d.asString.map .string
  | _ => .error (.cannotCast d.kind.name target.name)

/-- The contents as a key. -/
def asKey : Data ρ → Except Fault Key
  | .leaf (.boolean b) => .ok (.boolean b)
  | .leaf (.integer i _) => .ok (.integer i)
  | .leaf (.real r _) => .ok (.real r)
  | .leaf (.string s) => .ok (.string s)
  | d => .error (.notAKey d.kind)

end Data

/-- A key as contents of a value. -/
def Key.toLeaf : Key → Leaf
  | .boolean b => .boolean b
  | .integer i => .integer i none
  | .real r => .real r none
  | .string s => .string s

/-- The number that a text spells: a real when it has a point after its digits, and an integer
otherwise. -/
def numeral (text : String) : Except Fault Leaf :=
  if Numeral.looksReal text then (readReal text).map (.real · none)
    else (readInteger text).map (.integer · none)

end ScriptHost
