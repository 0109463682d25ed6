import ScriptHost.Kind

/-!
# Library routines

The routines that every host starts with, as data: what a routine does is given by `Routine`, what
it is called and which parameters it takes by `Routine.signature`. Routines that differ only in a
kind, a direction or a sign are one constructor with that argument, so a family has one meaning.

Parameters are taken by reference, except where a container is to keep the argument.
-/

set_option autoImplicit false

namespace ScriptHost

/-- How a parameter is bound to its argument. -/
inductive BindingMode where
  /-- The parameter is the argument. -/
  | reference
  /-- The parameter is a copy of the argument. -/
  | value
deriving DecidableEq, Repr

/-- The name of a binding mode. -/
def BindingMode.name : BindingMode → String
  | .reference => "Reference"
  | .value => "Value"

/-- A named parameter. -/
structure Param where
  name : String
  mode : BindingMode
deriving DecidableEq, Repr

/-- How much a clone shares with its source. -/
inductive CloneKind where
  /-- An environment shares its base table and starts with one empty frame. -/
  | minimal
  /-- Containers and tables are new, the values in them are shared. -/
  | shallow
  /-- Everything is new. -/
  | deep
deriving DecidableEq, Repr

/-- The clone kind of a given name. -/
def CloneKind.ofName? (name : String) : Option CloneKind :=
  [("Minimal", minimal), ("Shallow", shallow), ("Deep", deep)].lookup name

/-- A property of reals that a routine tests. -/
inductive RealTest where
  | finite
  | infinite
  | nan
  | normal
deriving DecidableEq, Repr

/-- A rule for rounding a real to a whole number. -/
inductive Rounding where
  | down
  | up
  | nearest
deriving DecidableEq, Repr

/-- What a routine does. -/
inductive Routine where
  | copy
  | clone
  /-- Conversion to a scalar kind. -/
  | convert (kind : Kind)
  | numeralOf
  | isLocked
  | lock
  | isKind (kind : Kind)
  | typeOf
  | typeId
  | isExactlyEqual
  | symbolExists
  | symbolOfFunction
  /-- The least or the greatest element of an array. -/
  | extremeElement (keep : Ordering)
  /-- The least or the greatest of two arguments. -/
  | extremeOfTwo (keep : Ordering)
  /-- The least or the greatest of three arguments. -/
  | extremeOfThree (keep : Ordering)
  /-- Addition or subtraction of one. -/
  | step (up : Bool)
  /-- Addition or subtraction of an amount. -/
  | stepBy (up : Bool)
  | append
  | insert
  | swap
  | sort
  | find
  | findSorted
  | lessThan
  | greaterThan
  | equal
  | abs
  | sqrt
  | ln
  | log
  | logBase
  | div
  | mod
  | test (property : RealTest)
  | round (rule : Rounding)
  | seed
  | randomBoolean
  | randomInteger
  | randomIntegerBelow
  | randomIntegerBetween
  | randomReal
  | randomRealBelow
  | randomRealBetween
  | onErrorPush
  | onErrorInvoke
  | onErrorPop
  | terminate
  | makeVersion
  | versionLessThan
  | versionEqual
  | versionAsString
deriving DecidableEq, Repr

namespace Routine

/-- Parameters taken by reference. -/
def byReference (names : List String) : List Param := names.map (⟨·, .reference⟩)

/-- The routine that tests for a kind is named after it. -/
def kindTest : Kind → String
  | .executable => "IsFunction"
  | k => "Is" ++ k.name

/-- The name and the parameters of a routine. -/
def signature : Routine → String × List Param
  | .copy => ("Copy", byReference ["value"])
  | .clone => ("Clone", byReference ["value"])
  | .convert k => ("As" ++ k.name, byReference ["value"])
  | .numeralOf => ("StringAsNumeric", byReference ["str"])
  | .isLocked => ("IsLocked", byReference ["arg"])
  | .lock => ("Lock", byReference ["arg"])
  | .isKind k => (kindTest k, byReference ["value"])
  | .typeOf => ("TypeOf", byReference ["expr"])
  | .typeId => ("TypeId", byReference ["arg"])
  | .isExactlyEqual => ("IsExactlyEqual", byReference ["lhs", "rhs"])
  | .symbolExists => ("SymbolExists", byReference ["id"])
  | .symbolOfFunction => ("SymbolOfFunction", byReference ["funcname", "nparams"])
  | .extremeElement keep => (extremeName keep, byReference ["A"])
  | .extremeOfTwo keep => (extremeName keep, byReference ["x", "y"])
  | .extremeOfThree keep => (extremeName keep, byReference ["x", "y", "z"])
  | .step up => (stepName up, byReference ["x"])
  | .stepBy up => (stepName up, byReference ["x", "amt"])
  | .append => ("Append", [⟨"A", .reference⟩, ⟨"elem", .value⟩])
  | .insert => ("Insert", [⟨"A", .reference⟩, ⟨"pos", .reference⟩, ⟨"elem", .value⟩])
  | .swap => ("Swap", byReference ["A", "index1", "index2"])
  | .sort => ("Sort", byReference ["A", "compareF"])
  | .find => ("Find", byReference ["A", "elem", "compareF"])
  | .findSorted => ("FindSorted", byReference ["A", "elem", "compareF"])
  | .lessThan => ("CompareLessThan", byReference ["arg1", "arg2"])
  | .greaterThan => ("CompareGreaterThan", byReference ["arg1", "arg2"])
  | .equal => ("CompareEqual", byReference ["arg1", "arg2"])
  | .abs => ("Abs", byReference ["x"])
  | .sqrt => ("Sqrt", byReference ["x"])
  | .ln => ("Ln", byReference ["x"])
  | .log => ("Log", byReference ["x"])
  | .logBase => ("Log", byReference ["x", "base"])
  | .div => ("Div", byReference ["x", "y"])
  | .mod => ("Mod", byReference ["x", "y"])
  | .test .finite => ("IsFinite", byReference ["x"])
  | .test .infinite => ("IsInfinite", byReference ["x"])
  | .test .nan => ("IsNaN", byReference ["x"])
  | .test .normal => ("IsNormal", byReference ["x"])
  | .round .down => ("Floor", byReference ["x"])
  | .round .up => ("Ceil", byReference ["x"])
  | .round .nearest => ("Round", byReference ["x"])
  | .seed => ("RandomSeed", byReference ["seed"])
  | .randomBoolean => ("RandomBoolean", [])
  | .randomInteger => ("RandomInteger", [])
  | .randomIntegerBelow => ("RandomInteger", byReference ["max"])
  | .randomIntegerBetween => ("RandomInteger", byReference ["min", "max"])
  | .randomReal => ("RandomReal", [])
  | .randomRealBelow => ("RandomReal", byReference ["max"])
  | .randomRealBetween => ("RandomReal", byReference ["min", "max"])
  | .onErrorPush => ("OnErrorPush", byReference ["index", "call"])
  | .onErrorInvoke => ("OnErrorInvoke", byReference ["index"])
  | .onErrorPop => ("OnErrorPop", byReference ["index"])
  | .terminate => ("Terminate", [])
  | .makeVersion => ("MakeVersion", byReference ["major", "minor", "patch"])
  | .versionLessThan => ("VersionLessThan", byReference ["lhs", "rhs"])
  | .versionEqual => ("VersionEqual", byReference ["lhs", "rhs"])
  | .versionAsString => ("VersionAsString", byReference ["version"])
where
  extremeName (keep : Ordering) : String := if keep == .lt then "Minimum" else "Maximum"
  stepName (up : Bool) : String := if up then "Inc" else "Dec"

/-- Every routine, in the order in which a host installs them. -/
def all : List Routine :=
  [.copy, .clone, .convert .boolean, .convert .integer, .convert .real, .convert .string,
    .numeralOf, .isLocked, .lock] ++
  Kind.all.map .isKind ++
  [.typeOf, .typeId, .isExactlyEqual, .symbolExists, .symbolOfFunction, .extremeElement .lt,
    .extremeOfTwo .lt, .extremeOfThree .lt, .extremeElement .gt, .extremeOfTwo .gt,
    .extremeOfThree .gt, .step true, .stepBy true,
    .step false, .stepBy false, .append, .insert, .swap, .sort, .find, .findSorted, .lessThan,
    .greaterThan, .equal,
    .abs, .sqrt, .ln, .log, .logBase, .div, .mod, .test .finite, .test .infinite, .test .nan,
    .test .normal,
    .round .down, .round .up, .round .nearest, .seed, .randomBoolean, .randomInteger,
    .randomIntegerBelow,
    .randomIntegerBetween, .randomReal, .randomRealBelow, .randomRealBetween, .onErrorPush,
    .onErrorInvoke, .onErrorPop,
    .terminate, .makeVersion, .versionLessThan, .versionEqual, .versionAsString]

end Routine

end ScriptHost
