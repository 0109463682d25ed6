import ScriptHost.Number.Integer

/-!
# Kinds of value

Every value of a script is of one of ten kinds. A kind has a name, which messages and listings use,
and a number, its place in `Kind.all`. Four kinds are scalar: they compare, convert into one another
and serve as keys.
-/

set_option autoImplicit false

namespace ScriptHost

/-- The kinds of value. -/
inductive Kind where
  | null
  | type
  | boolean
  | integer
  | real
  | string
  | array
  | dictionary
  | record
  | executable
deriving DecidableEq, Repr

namespace Kind

/-- All kinds in the order of their numbers. -/
def all : List Kind :=
  [.null, .type, .boolean, .integer, .real, .string, .array, .dictionary, .record, .executable]

/-- The name of a kind. -/
def name : Kind → String
  | .null => "Null"
  | .type => "Type"
  | .boolean => "Boolean"
  | .integer => "Integer"
  | .real => "Real"
  | .string => "String"
  | .array => "Array"
  | .dictionary => "Dictionary"
  | .record => "Structure"
  | .executable => "Executable"

/-- The number of a kind. -/
def number : Kind → Nat
  | .null => 0
  | .type => 1
  | .boolean => 2
  | .integer => 3
  | .real => 4
  | .string => 5
  | .array => 6
  | .dictionary => 7
  | .record => 8
  | .executable => 9

/-- Whether values of the kind are scalars. -/
def isScalar : Kind → Bool
  | .boolean | .integer | .real | .string => true
  | _ => false

/-- The kind of a given name. -/
def ofName? (name : String) : Option Kind := all.find? (·.name == name)

end Kind

end ScriptHost
