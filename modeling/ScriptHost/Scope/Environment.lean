import ScriptHost.Scope.Stack

/-!
# Environments

An environment is a base table under a stack of frames. A bare key is looked up from the innermost
frame outwards and in the base table last, and bound in the innermost frame, or in the base table
when there is no frame; a marked key means the base table for both.

Environments can share a base table, and nothing else: an `Environment` names its base table by
number among the base tables of a host, while `Scope` is an environment with its base table at hand,
which is what the rules of lookup and binding are about.
-/

set_option autoImplicit false

namespace ScriptHost

/-- An environment with its base table at hand. -/
structure Scope where
  base : SymbolTable
  stack : Stack

/-- A step over an environment and its base table. -/
abbrev ScopeM := EStateM Fault Scope

namespace Scope

/-! ## Lookup -/

/-- The tables in which a key is looked up, in order, and the name it is looked up under. -/
def searchOrder (s : Scope) (key : String) : List SymbolTable × String :=
  match unmark key with
  | (true, name) => ([s.base], name)
  | (false, name) => (s.stack.frames ++ [s.base], name)

/-- The value under a key: that of the plain name or else, for a mangled key, that of the
overload. -/
def find? (s : Scope) (key : String) : Option Handle :=
  let (tables, name) := s.searchOrder key
  match tables.findSome? (·.get? (.plain name)) with
  | some v => some v
  | none =>
    match demangle? name with
    | some (base, arity) => tables.findSome? (·.get? (.overload base arity))
    | none => none

/-- The overload of a name for an arity. -/
def findOverload? (s : Scope) (key : String) (arity : Nat) : Option Handle :=
  let (tables, name) := s.searchOrder key
  tables.findSome? (·.get? (.overload name arity))

/-- The value under a key. -/
def lookup (s : Scope) (key : String) : Except Fault Handle :=
  match s.find? key with
  | some v => .ok v
  | none => .error (.noSuchSymbol key)

/-- The overload of a name for an arity. -/
def lookupOverload (s : Scope) (key : String) (arity : Nat) : Except Fault Handle :=
  match s.findOverload? key arity with
  | some v => .ok v
  | none => .error (.noSuchSymbol (mangle key arity))

/-- The number of bindings in all tables. -/
def bindingCount (s : Scope) : Nat :=
  s.stack.frames.foldl (fun n frame => n + frame.length) s.base.length

/-! ## Change -/

/-- A step over the base table. -/
def onBase (step : TableM Unit) : ScopeM Unit := fun s =>
  match step s.base with
  | .ok _ t => .ok () { s with base := t }
  | .error f t => .error f { s with base := t }

/-- A step over the stack. -/
def onStack (step : StackM Unit) : ScopeM Unit := fun s =>
  match step s.stack with
  | .ok _ t => .ok () { s with stack := t }
  | .error f t => .error f { s with stack := t }

/-- A step over the innermost frame, or over the base table when there is no frame. -/
def onInnermost (step : TableM Unit) : ScopeM Unit := fun s =>
  match s.stack.frames with
  | [] => onBase step s
  | frame :: frames =>
    match step frame with
    | .ok _ t => .ok () { s with stack := { s.stack with frames := t :: frames } }
    | .error f t => .error f { s with stack := { s.stack with frames := t :: frames } }

/-- A step over the table that a key is bound in, given the bare name. -/
def onTarget (key : String) (step : String → TableM Unit) : ScopeM Unit :=
  match unmark key with
  | (true, name) => onBase (step name)
  | (false, name) => onInnermost (step name)

/-- Binds a value with given contents under a key. -/
def insert (key : String) (v : Handle) (d : Data Handle) : ScopeM Unit :=
  onTarget key fun name => SymbolTable.bindAll (SymbolTable.symbolsOf name d) v

/-- Binds a value under the plain name of a key. -/
def insertPlain (key : String) (v : Handle) : ScopeM Unit :=
  onTarget key fun name => SymbolTable.bind (.plain name) v

/-- Puts a frame on top. -/
def push (frame : SymbolTable) : ScopeM Unit := onStack (Stack.push frame)

/-- Empties the base table and drops every frame. -/
def clear (s : Scope) : Scope := { base := .empty, stack := { s.stack with frames := [] } }

end Scope

/-- An environment, with its base table named by number. -/
structure Environment where
  base : Nat
  stack : Stack

/-- Whether two environments have one base table. -/
def Environment.sharesBase (a b : Environment) : Bool := a.base == b.base

/-- The limit of a stack for which none is given. -/
def Stack.defaultLimit : Nat := 1000

end ScriptHost
