import ScriptHost.Bounds

/-!
# Type descriptors

A type descriptor is a schema: it says what a fresh variable looks like, and an array keeps the
descriptor of its elements. `TypeDesc.text` is its name, which is also what two descriptors are
compared by.

A descriptor is built from a `TypeSpec`, from the inside out, and the build refuses limits in the
wrong order, an array range that ends more than one place before it starts, and a member declared
twice. `TypeDesc.WellFormed` states the last two; the first is part of `Bounds`.
-/

set_option autoImplicit false

namespace ScriptHost

/-- A schema of values. -/
inductive TypeDesc where
  | null
  | boolean
  | integer
  | rangedInteger (bounds : Bounds Integer)
  | real
  | rangedReal (bounds : Bounds Float)
  | string
  | dictionary
  | array (start finish : Integer) (element : TypeDesc) (policy : RangePolicy)
  | record (name : Option String) (members : List (String × TypeDesc))

/-- The schema of a structure: its name, if it has one, and its members in order. -/
structure RecordType where
  name : Option String
  members : List (String × TypeDesc)

namespace TypeDesc

/-- The kind of value that a schema declares. -/
def kind : TypeDesc → Kind
  | .null => .null
  | .boolean => .boolean
  | .integer | .rangedInteger _ => .integer
  | .real | .rangedReal _ => .real
  | .string => .string
  | .dictionary => .dictionary
  | .array _ _ _ _ => .array
  | .record _ _ => .record

/-- The number of indices from `start` to `finish`, counted in a 64-bit word: the range of all
integers has `2 ^ 64` of them, which the word holds as zero. -/
def slots (start finish : Integer) : Nat :=
  ((finish.toInt - start.toInt + 1) % 18446744073709551616).toNat

/-- Whether an array that is declared over the range is empty. -/
def vacant (start finish : Integer) : Bool := slots start finish == 0

mutual

/-- The name of a type. -/
def text : TypeDesc → String
  | .rangedInteger b => s!"Integer [{b.least.text}, {b.greatest.text}]"
  | .rangedReal b => s!"Real [{Decimal.positional b.least}, {Decimal.positional b.greatest}]"
  | .array s f e _ => "Array [" ++ s.text ++ ", " ++ f.text ++ "] of " ++ e.text
  | .record (some n) _ => n
  | .record none ms => "Structure \x7b" ++ String.intercalate "," (memberTexts ms) ++ " \x7d"
  | .null => Kind.null.name
  | .boolean => Kind.boolean.name
  | .integer => Kind.integer.name
  | .real => Kind.real.name
  | .string => Kind.string.name
  | .dictionary => Kind.dictionary.name

/-- The members of a structure type without a name. -/
def memberTexts : List (String × TypeDesc) → List String
  | [] => []
  | (n, t) :: ms => (" " ++ n ++ ": " ++ t.text) :: memberTexts ms

end

/-- The array type over the indices from `start` to `finish`, which may end one place before it
starts. -/
def ofRange (start finish : Integer) (element : TypeDesc) (policy : RangePolicy) :
    Except Fault TypeDesc :=
  if finish.toInt < start.toInt - 1 then .error (.rangeInverted start finish)
    else .ok (.array start finish element policy)

/-- Declares one more member of a structure type. -/
def addMember (members : List (String × TypeDesc)) (name : String) (type : TypeDesc) :
    Except Fault (List (String × TypeDesc)) :=
  if members.any (·.1 == name) then .error (.memberTaken name) else .ok (members ++ [(name, type)])

mutual

/-- Array ranges are not inverted and members are declared once, at every level. -/
def WellFormed : TypeDesc → Prop
  | .array s f e _ => s.toInt - 1 ≤ f.toInt ∧ e.WellFormed
  | .record _ ms => (ms.map (·.1)).Nodup ∧ MembersWellFormed ms
  | _ => True

/-- The types of all members are well formed. -/
def MembersWellFormed : List (String × TypeDesc) → Prop
  | [] => True
  | (_, t) :: ms => t.WellFormed ∧ MembersWellFormed ms

end

end TypeDesc

/-- The schema of a structure as a type. -/
def RecordType.toType (t : RecordType) : TypeDesc := .record t.name t.members

/-! ## Building a type -/

/-- A type as a program spells it, before its ranges and names are checked. -/
inductive TypeSpec where
  | null
  | boolean
  | integer
  | real
  | string
  | dictionary
  | rangedInteger (least greatest : Integer) (policy : RangePolicy)
  | rangedReal (least greatest : Float) (policy : RangePolicy)
  | array (start finish : Integer) (element : TypeSpec) (policy : RangePolicy)
  | record (name : Option String) (members : List (String × TypeSpec))

namespace TypeSpec

mutual

/-- The type that a spelling stands for. -/
def build : TypeSpec → Except Fault TypeDesc
  | .null => .ok .null
  | .boolean => .ok .boolean
  | .integer => .ok .integer
  | .real => .ok .real
  | .string => .ok .string
  | .dictionary => .ok .dictionary
  | .rangedInteger a b p => (Bounds.ofIntegers a b p).map .rangedInteger
  | .rangedReal a b p => (Bounds.ofReals a b p).map .rangedReal
  | .array s f e p => do TypeDesc.ofRange s f (← e.build) p
  | .record n ms => (buildMembers [] ms).map (.record n)

/-- Adds the members of a structure type in order; each type is built before its name is checked. -/
def buildMembers (done : List (String × TypeDesc)) :
    List (String × TypeSpec) → Except Fault (List (String × TypeDesc))
  | [] => .ok done
  | (n, t) :: ms => do buildMembers (← TypeDesc.addMember done n (← t.build)) ms

end

end TypeSpec

end ScriptHost
