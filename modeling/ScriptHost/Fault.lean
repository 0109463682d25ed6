import ScriptHost.Kind
import ScriptHost.Number.Decimal

/-!
# Faults

A fault is the cause for which an operation failed, with the data its message shows. `Fault.kind`
sorts the causes into the fourteen classes that scripts can install handlers for, and
`Fault.message` is the only place where a cause is worded. `Fault.raised` is a fault that a script
raises itself, with a text of its own.

Only a fault of class `terminate` cannot be caught (`Fault.isCatchable`).
-/

set_option autoImplicit false

namespace ScriptHost

/-- The classes of fault. The first two name no failure; they are the indices of "nothing" and
"success". -/
inductive FaultKind where
  | null
  | ok
  | terminate
  | illegalCast
  | valueLocked
  | noSuchMember
  | duplicateSymbol
  | noSuchSymbol
  | divideByZero
  | domainError
  | rangeError
  | illegalHandle
  | illegalValue
  | stackOverflow
deriving DecidableEq, Repr

namespace FaultKind

/-- All classes in the order of their indices. -/
def all : List FaultKind :=
  [.null, .ok, .terminate, .illegalCast, .valueLocked, .noSuchMember, .duplicateSymbol,
    .noSuchSymbol, .divideByZero, .domainError, .rangeError, .illegalHandle, .illegalValue,
    .stackOverflow]

/-- The name of a class. -/
def name : FaultKind → String
  | .null => "Null"
  | .ok => "Ok"
  | .terminate => "Terminate"
  | .illegalCast => "IllegalCast"
  | .valueLocked => "ValueLocked"
  | .noSuchMember => "NoSuchMember"
  | .duplicateSymbol => "DuplicateSymbol"
  | .noSuchSymbol => "NoSuchSymbol"
  | .divideByZero => "DivideByZero"
  | .domainError => "DomainError"
  | .rangeError => "RangeError"
  | .illegalHandle => "IllegalHandle"
  | .illegalValue => "IllegalValue"
  | .stackOverflow => "StackOverflowError"

/-- The name of the constant that holds the index of a class. -/
def constantName : FaultKind → String
  | .null => "ERR_NULL"
  | .ok => "ERR_OK"
  | .terminate => "ERR_TERMINATE"
  | .illegalCast => "ERR_ILLEGAL_CAST"
  | .valueLocked => "ERR_VALUE_LOCKED"
  | .noSuchMember => "ERR_NO_SUCH_MEMBER"
  | .duplicateSymbol => "ERR_DUPLICATE_SYMBOL"
  | .noSuchSymbol => "ERR_NO_SUCH_SYMBOL"
  | .divideByZero => "ERR_DIVIDE_BY_ZERO"
  | .domainError => "ERR_DOMAIN_ERROR"
  | .rangeError => "ERR_RANGE_ERROR"
  | .illegalHandle => "ERR_ILLEGAL_HANDLE"
  | .illegalValue => "ERR_ILLEGAL_VALUE"
  | .stackOverflow => "ERR_STACK_OVERFLOW"

/-- The index of a class. -/
def index : FaultKind → Nat
  | .null => 0
  | .ok => 1
  | .terminate => 2
  | .illegalCast => 3
  | .valueLocked => 4
  | .noSuchMember => 5
  | .duplicateSymbol => 6
  | .noSuchSymbol => 7
  | .divideByZero => 8
  | .domainError => 9
  | .rangeError => 10
  | .illegalHandle => 11
  | .illegalValue => 12
  | .stackOverflow => 13

/-- The class at an index. -/
def ofIndex? (i : Int) : Option FaultKind := if 0 ≤ i then all[i.toNat]? else none

/-- The class of a given name. -/
def ofName? (name : String) : Option FaultKind := all.find? (·.name == name)

end FaultKind

/-- The classes whose faults a script can raise with a text of its own. -/
inductive RaisedKind where
  | terminate
  | illegalCast
  | duplicateSymbol
  | divideByZero
  | domainError
  | rangeError
  | illegalHandle
  | illegalValue
deriving DecidableEq, Repr

/-- The class of a raised fault. -/
def RaisedKind.kind : RaisedKind → FaultKind
  | .terminate => .terminate
  | .illegalCast => .illegalCast
  | .duplicateSymbol => .duplicateSymbol
  | .divideByZero => .divideByZero
  | .domainError => .domainError
  | .rangeError => .rangeError
  | .illegalHandle => .illegalHandle
  | .illegalValue => .illegalValue

/-- The causes of failure. -/
inductive Fault where
  /-- Raised by a script, with its text. -/
  | raised (kind : RaisedKind) (message : String)
  /-- The program asked to end. -/
  | terminated
  /-- The host asked the program to end. -/
  | interrupted
  /-- A locked value was to be changed. -/
  | valueLocked
  | noSuchMember (name : String)
  | noSuchSymbol (key : String)
  /-- A frame was to be pushed past the limit of the stack. -/
  | stackOverflow (depth limit : Nat)
  | cannotCast (source target : String)
  | unreadableBoolean (text : String)
  | unreadableInteger (text : String)
  | unreadableReal (text : String)
  /-- A real without a whole part in the range of the integers. -/
  | noWholePart (value : Float)
  | notAKey (kind : Kind)
  /-- A structure was assigned one with other members. -/
  | membersDiffer
  /-- A value of another kind was appended to a typed array. -/
  | elementKind (incoming element : Kind)
  | keyRequired
  | notExtensible (kind : Kind)
  | noKeys (kind : Kind)
  | notAnArray (kind : Kind)
  | notADictionary (kind : Kind)
  | noElements (kind : Kind)
  | noLength (kind : Kind)
  | noMembers (kind : Kind)
  | notComparable (kind : Kind)
  | notSteppable (kind : Kind)
  | executableClone
  | undescribedMember (name : String)
  | indexOutOfRange (index start finish : Integer)
  | lengthsDiffer (source target : Nat)
  /-- The last index would pass the greatest integer. -/
  | arrayTooLong (start : Integer) (length : Nat)
  | rangeInverted (start finish : Integer)
  | indexNotInteger (index : Int)
  | integerOverflow
  | integerBoundsInverted (least greatest : Integer)
  | realBoundsInverted (least greatest : Float)
  | integerOutOfBounds (value least greatest : Integer)
  | realOutOfBounds (value least greatest : Float)
  /-- A container was to hold a value that contains it. -/
  | containsItself
  | handlerRefused (kind : FaultKind)
  | noHandlerIndex (index : Integer)
  | notOrdered
  | negativeRoot (value : Float)
  | logarithmUndefined (value : Float)
  | logarithmBaseOne
  | absoluteOverflow
  | quotientOverflow
  | divisionByZero
  | modulusByZero
  | upperBoundNotPositive (bound : Integer)
  | drawFromNothing (least greatest : Integer)
  | symbolTaken (key : String)
  | parameterTaken (name : String)
  | memberTaken (name : String)
  | overloadTaken (function : String) (arity : Nat)

namespace Fault

/-- The class of a fault. -/
def kind : Fault → FaultKind
  | .raised k _ => k.kind
  | .terminated | .interrupted => .terminate
  | .valueLocked => .valueLocked
  | .noSuchMember _ => .noSuchMember
  | .noSuchSymbol _ => .noSuchSymbol
  | .stackOverflow _ _ => .stackOverflow
  | .cannotCast _ _ | .unreadableBoolean _ | .unreadableInteger _ | .unreadableReal _
  | .noWholePart _ | .notAKey _ | .membersDiffer | .elementKind _ _ | .keyRequired
  | .notExtensible _ | .noKeys _ | .notAnArray _ | .notADictionary _ | .noElements _ | .noLength _
  | .noMembers _ | .notComparable _ | .notSteppable _ | .executableClone
  | .undescribedMember _ => .illegalCast
  | .indexOutOfRange _ _ _ | .lengthsDiffer _ _ | .arrayTooLong _ _ | .rangeInverted _ _
  | .indexNotInteger _ | .integerOverflow => .rangeError
  | .integerBoundsInverted _ _ | .realBoundsInverted _ _ | .integerOutOfBounds _ _ _
  | .realOutOfBounds _ _ _ | .containsItself | .handlerRefused _
  | .noHandlerIndex _ => .illegalValue
  | .notOrdered | .negativeRoot _ | .logarithmUndefined _ | .logarithmBaseOne | .absoluteOverflow
  | .quotientOverflow | .upperBoundNotPositive _ | .drawFromNothing _ _ => .domainError
  | .divisionByZero | .modulusByZero => .divideByZero
  | .symbolTaken _ | .parameterTaken _ | .memberTaken _ | .overloadTaken _ _ => .duplicateSymbol

/-- The wording for limits that stand in the wrong order. -/
def boundsInverted (least greatest : String) : String :=
  s!"The range minimum, {least}, exceeds the maximum, {greatest}."

/-- The wording for a value outside its limits. -/
def outOfBounds (value least greatest : String) : String :=
  s!"The value assigned, {value}, does not fall within the allowable range [{least}, {greatest}]."

/-- The text of a fault. -/
def message : Fault → String
  | .raised _ m => m
  | .terminated => "Program termination."
  | .interrupted => "Execution interrupted."
  | .valueLocked => "Cannot modify a locked value."
  | .noSuchMember n => s!"The member '{n}' does not exist."
  | .noSuchSymbol k => s!"The symbol '{k}' does not exist."
  | .stackOverflow d m => s!"Stack overflow: depth {d} exceeds the maximum of {m}."
  | .cannotCast s t => s!"Cannot cast a value of type {s} to {t}."
  | .unreadableBoolean t => s!"Cannot parse a boolean value from the string \"{t}\"."
  | .unreadableInteger t => s!"Cannot parse an integer value from the string \"{t}\"."
  | .unreadableReal t => s!"Cannot parse a real value from the string \"{t}\"."
  | .noWholePart v => s!"The real value {Decimal.general v} cannot be represented as an integer."
  | .notAKey k => s!"A value of type {k.name} cannot be used as a dictionary key."
  | .membersDiffer => "Cannot assign a structure with a different set of members."
  | .elementKind i e => s!"Cannot add a value of type {i.name} to an array of {e.name}."
  | .keyRequired => "Dictionary entries require a key."
  | .notExtensible k => s!"Cannot add to a value of type {k.name}."
  | .noKeys k => s!"Values of type {k.name} have no keys."
  | .notAnArray k => s!"Expected an Array, found {k.name}."
  | .notADictionary k => s!"Expected a Dictionary, found {k.name}."
  | .noElements k => s!"Values of type {k.name} have no elements."
  | .noLength k => s!"Values of type {k.name} have no length."
  | .noMembers k => s!"Values of type {k.name} have no members."
  | .notComparable k => s!"Values of type {k.name} cannot be compared."
  | .notSteppable k => s!"Values of type {k.name} cannot be incremented."
  | .executableClone => "Cannot clone an Executable."
  | .undescribedMember n => s!"The member '{n}' has no describable type."
  | .indexOutOfRange i s f =>
    s!"The specified index, {i.text}, does not fall within [{s.text}, {f.text}]."
  | .lengthsDiffer s t => s!"Cannot assign an array of length {s} to an array of length {t}."
  | .arrayTooLong s n => s!"An array starting at {s.text} cannot hold {n} elements."
  | .rangeInverted s f => s!"The array range [{s.text}, {f.text}] is inverted."
  | .indexNotInteger i => s!"The index {i} is not a representable Integer."
  | .integerOverflow => "Integer overflow."
  | .integerBoundsInverted a b => boundsInverted a.text b.text
  | .realBoundsInverted a b => boundsInverted (Decimal.positional a) (Decimal.positional b)
  | .integerOutOfBounds v a b => outOfBounds v.text a.text b.text
  | .realOutOfBounds v a b =>
    outOfBounds (Decimal.positional v) (Decimal.positional a) (Decimal.positional b)
  | .containsItself => "A container cannot hold a value that contains it."
  | .handlerRefused k => s!"Handlers cannot be installed for {k.name}."
  | .noHandlerIndex i =>
    s!"The specified index, {i.text}, is not a valid error callback index in the range " ++
      s!"[0, {FaultKind.all.length})."
  | .notOrdered => "NaN cannot be ordered against another value."
  | .negativeRoot v => s!"Cannot take the square root of a negative number, {Decimal.general v}."
  | .logarithmUndefined v =>
    s!"Cannot take the logarithm of a non-positive number, {Decimal.general v}."
  | .logarithmBaseOne => "A logarithm base cannot be 1."
  | .absoluteOverflow => "The absolute value overflows Integer."
  | .quotientOverflow => "The quotient overflows Integer."
  | .divisionByZero => "Integer division by zero."
  | .modulusByZero => "Integer modulus by zero."
  | .upperBoundNotPositive b => s!"The upper bound, {b.text}, must be greater than zero."
  | .drawFromNothing a b => s!"The range [{a.text}, {b.text}] is empty."
  | .symbolTaken k => s!"The symbol '{k}' already exists."
  | .parameterTaken n => s!"Duplicate function parameter id: '{n}'."
  | .memberTaken n => s!"Duplicate structure member id: '{n}'."
  | .overloadTaken f a => s!"The function '{f}' already has an overload taking {a} parameters."

/-- Whether handlers are offered the fault. -/
def isCatchable (f : Fault) : Bool := f.kind != .terminate

/-- The text of a fault under the name of its class. -/
def diagnostic (f : Fault) : String := s!"{f.kind.name}: {f.message}"

end Fault

end ScriptHost
