import ScriptHost.Number.Double
import ScriptHost.Program.Routine
import ScriptHost.TypeDesc

/-!
# Programs

A program is a tree of expressions. An expression yields a value or a report, plain data about the
state; the operations on evaluated operands are grouped by what they need: `Question` needs nothing
but its own arguments, `Command` the state of the host, `Unary` and `Binary` values in the heap, and
`Place` is where a value can be bound. What remains in `Expr` is control: names, branches, calls,
guards, and the construction of containers.

The body of a function is a list of expressions, and it is part of the program text: nothing but
text is needed to say what a function does.
-/

set_option autoImplicit false

namespace ScriptHost

/-- Plain data read from outside. -/
inductive Datum where
  | null
  | boolean (b : Bool)
  | integer (i : Int)
  /-- A number that is not written as an integer. -/
  | fraction
  | text (s : String)
  | list (items : List Datum)
  | record (fields : List (String × Datum))

/-- The environments a program can name: that of the host, and others. -/
inductive EnvName where
  | host
  | named (name : String)
deriving DecidableEq, Repr

/-- A fresh value. -/
inductive Literal where
  /-- The locked Null. -/
  | null
  /-- An unlocked Null, which takes on whatever is first assigned to it. -/
  | placeholder
  | boolean (b : Bool)
  | integer (i : Integer)
  | real (r : Double)
  | string (s : String)
  | type (spec : TypeSpec)
  /-- The number that a text spells, an integer or a real by its shape. -/
  | numeral (text : String)

/-- A question that its arguments alone answer. -/
inductive Question where
  | generalForm (r : Float)
  | readInteger (text : String)
  | readReal (text : String)
  | realEqual (a b : Float)
  | realClass (r : Float)
  | mangle (name : String) (arity : Nat)
  | demangle (key : String)
  | faultKind (index : Int)
  | faultInfo (fault : Fault)
  | kinds
  | policyOfCode (code : Int)
  | policyCode (policy : RangePolicy)
  | defaultPolicy
  | fitInteger (least greatest : Integer) (policy : RangePolicy) (value : Integer)
  | fitReal (least greatest : Float) (policy : RangePolicy) (value : Float)
  | arraySlots (start finish : Integer) (policy : RangePolicy)
  | typeInfo (spec : TypeSpec) (names : List String)
  | registry
  | version
  | settings (source : Datum)

/-- A draw from the random stream. -/
inductive Draw where
  | reseed (seed : UInt64)
  | state
  | word
  | uniform
  | boolean
  | integer
  | below (bound : Integer)
  | between (least greatest : Integer)
  | real
  | realBetween (least greatest : Double)

/-- An operation on the state of the host without operands. -/
inductive Command where
  | param (name : String)
  | callDepth
  | interrupt
  | resetInterrupt
  | isInterrupted
  | handlersPop (kind : FaultKind)
  | handlersDepth (kind : FaultKind)
  | handlersSnapshot (kind : FaultKind)
  | handlersClear
  | settings
  | draw (d : Draw)
  | newEnv (env : EnvName) (limit : Option Nat)
  | pushFrame (env : EnvName)
  | popFrame (env : EnvName)
  | pushTable (env : EnvName) (table : String)
  | lookup (env : EnvName) (key : String)
  | lookupOverload (env : EnvName) (name : String) (arity : Nat)
  | symbolExists (env : EnvName) (key : String)
  | clearEnv (env : EnvName)
  | envStats (env : EnvName)
  | baseKeys (env : EnvName)
  | listing (env : EnvName)
  | histogram (env : EnvName)
  | cloneEnv (source target : EnvName) (kind : CloneKind)
  | loadEnv (source target : EnvName) (kind : CloneKind)
  /-- Whether two environments have one base table. -/
  | sharesBase (a b : EnvName)
  | newTable (table : String)
  | clearTable (table : String)
  | tableGet (table key : String)
  | tableOverload (table key : String) (arity : Nat)
  | tableContains (table key : String)
  | tableKeys (table : String)
  | duplicateTable (source target : String) (kind : CloneKind)
  | loadTable (source target : String) (kind : CloneKind)

/-- An operation on one value. -/
inductive Unary where
  /-- Locks the value and yields it. -/
  | locked
  | lock
  | elementAt (index : Integer)
  | member (name : String)
  | declare
  | copy
  | duplicate (kind : CloneKind)
  | cloneWith (kind : CloneKind)
  | cast (kind : Kind)
  | typeOf
  | swap (a b : Integer)
  | elements
  | keys
  | bounds
  | resolve (index : Integer)
  | length
  | members
  | isLocked
  | kind
  | display
  | debug
  | asBoolean
  | asInteger
  | asReal
  | asString
  | predicates
  | inspect

/-- An operation on two values. -/
inductive Binary where
  | assign
  | add
  | insertAt (position : Integer)
  | element
  | getKey
  | removeKey
  | containsKey
  | compare
  | equals
  | lessThan
  | exactlyEqual
  /-- Structural equality, reals up to rounding error. -/
  | alike
  /-- Whether two handles are one. -/
  | same
  | reaches

/-- Where a value can be bound. -/
inductive Place where
  | symbol (env : EnvName) (key : String)
  /-- The plain slot of a name, also for an executable. -/
  | plainSymbol (env : EnvName) (key : String)
  | tableSymbol (table key : String)
  | tablePlain (table key : String)
  | handler (kind : FaultKind)

/-- Expressions. -/
inductive Expr where
  | literal (l : Literal)
  | ask (q : Question)
  | command (c : Command)
  | raise (f : Fault)
  | unary (op : Unary) (operand : Expr)
  | binary (op : Binary) (left right : Expr)
  | insertKey (target key value : Expr)
  | setElements (target : Expr) (items : List Expr)
  | bind (place : Place) (value : Expr)
  | array (start : Integer) (items : List Expr) (policy : RangePolicy)
  | dictionary (entries : List (Expr × Expr))
  | record (members : List (String × Expr))
  | function (name : String) (params : List Param) (body : List Expr)
  /-- The value held in a register. -/
  | held (register : String)
  /-- Holds a value in a register and yields it. -/
  | hold (register : String) (value : Expr)
  | sequence (parts : List Expr)
  | times (count : Nat) (part : Expr)
  | branch (condition consequent alternative : Expr)
  /-- The outcome of a part as a report, whether it fails or not. -/
  | attempt (part : Expr)
  | log (part : Expr)
  | call (name : String) (args : List Expr)
  | callValue (callee : Expr) (args : List Expr)
  /-- The states of a call up to the binding of its parameters. -/
  | callStates (name : String) (args : List Expr)
  /-- A statement whose faults are offered to the handlers. -/
  | guard (location : String) (body : List Expr)
  /-- A body run to its outcome at top level. -/
  | run (body : List Expr)
  | invokeHandlers (kind : FaultKind) (location message : String)
  /-- A frame with some bindings, in which keys are looked up. -/
  | scope (env : EnvName) (bindings : List (String × Expr)) (keys : List String)

/-- What runs when a callable is called. -/
inductive Body where
  | routine (r : Routine)
  | script (code : List Expr)

end ScriptHost
