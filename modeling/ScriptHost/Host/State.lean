import ScriptHost.Random
import ScriptHost.Report
import ScriptHost.Scope.Environment
import ScriptHost.Settings

/-!
# The state of a host

Everything that a program can see or change: the heap, the environment of the host and others by
name, the base tables that environments share, the handlers, the random stream, the settings, the
interrupt flag, the number of calls in progress, and what the program keeps for itself in registers,
tables and a log.

A step of a program is a `HostM` action: it ends with a result, with a fault, or with nothing
because calls were nested deeper than it was given levels for (`Halt.exhausted`, which is no fault
and is caught by nothing). It always leaves a state. Steps over the heap, over a scope or over a
table become steps of the host by `onHeap`, `onScope` and `onTable`.
-/

set_option autoImplicit false

namespace ScriptHost

/-- Why a step has no result. -/
inductive Halt where
  | fault (f : Fault)
  /-- No more levels of nested calls. -/
  | exhausted

/-- The state of a host. -/
structure Host where
  heap : Heap
  bases : Array SymbolTable
  env : Environment
  /-- Handlers with the class of fault they are for, newest first. -/
  handlers : List (FaultKind × Handle)
  stream : RandomStream
  callDepth : Nat
  settings : Settings
  interrupted : Bool
  registers : List (String × Handle)
  environments : List (String × Environment)
  tables : List (String × SymbolTable)
  log : List Report

/-- The state that a step leaves, whether it fails or not. -/
def endState {σ ε α : Type} (m : EStateM ε σ α) (s : σ) : σ :=
  match m s with
  | .ok _ t => t
  | .error _ t => t

/-- A step of a program. -/
abbrev HostM := EStateM Halt Host

namespace Host

/-- A host with empty tables. -/
def bare (settings : Settings) : Host where
  heap := .empty
  bases := #[.empty]
  env := ⟨0, .empty settings.stackLimit⟩
  handlers := []
  stream := .ofSeed settings.seed
  callDepth := 0
  settings := settings
  interrupted := false
  registers := []
  environments := []
  tables := []
  log := []

/-- The base table of a number. -/
def base (s : Host) (i : Nat) : SymbolTable := (s.bases[i]?).getD .empty

/-- An environment with its base table at hand. -/
def scopeOf (s : Host) (e : Environment) : Scope := ⟨s.base e.base, e.stack⟩

/-- The scope of the host's own environment. -/
def scope (s : Host) : Scope := s.scopeOf s.env

/-- The host's own stack cut down to a depth. -/
def unwind (s : Host) (depth : Nat) : Host :=
  { s with env := { s.env with stack := s.env.stack.unwind depth } }

/-- The handlers for a class of fault, newest first. -/
def handlersFor (s : Host) (kind : FaultKind) : List Handle :=
  (s.handlers.filter (·.1 = kind)).map (·.2)

end Host

namespace HostM

variable {α : Type}

/-- Ends with a fault. -/
def fail (f : Fault) : HostM α := throw (.fault f)

/-- An answer read off the state. -/
def look (f : Host → α) : HostM α := fun s => .ok (f s) s

/-- An answer or a fault. -/
def of (x : Except Fault α) : HostM α := fun s =>
  match x with
  | .ok a => .ok a s
  | .error f => .error (.fault f) s

/-- A change that cannot fail. -/
def change (f : Host → Host) : HostM Unit := fun s => .ok () (f s)

/-- A step over the heap. The heap is taken out of the state meanwhile, so that it can be changed in
place. -/
def onHeap (step : HeapM α) : HostM α := fun s =>
  let h := s.heap
  let s := { s with heap := .empty }
  match step h with
  | .ok a h => .ok a { s with heap := h }
  | .error f h => .error (.fault f) { s with heap := h }

/-- What is done after a step, whether it fails or not. -/
def always (step : HostM α) (after : Host → Host) : HostM α := fun s =>
  match step s with
  | .ok a s => .ok a (after s)
  | .error e s => .error e (after s)

/-! ## Environments and tables by name -/

/-- Makes an environment with a base table of its own. -/
def newEnvironment (limit : Nat) : HostM Environment := fun s =>
  .ok ⟨s.bases.size, .empty limit⟩ { s with bases := s.bases.push .empty }

/-- Puts an environment under a name. -/
def putEnvironment (name : EnvName) (e : Environment) : HostM Unit :=
  match name with
  | .host => change fun s => { s with env := e }
  | .named n => change fun s => { s with environments := Named.put n e s.environments }

/-- The environment of a name; one that is not there yet is made. -/
def environment (name : EnvName) : HostM Environment := do
  match name with
  | .host => look (·.env)
  | .named n =>
    match ← look fun s => Named.find n s.environments with
    | some e => return e
    | none =>
      let e ← newEnvironment Stack.defaultLimit
      putEnvironment name e
      return e

/-- The scope of a named environment. -/
def scope (name : EnvName) : HostM Scope := do
  let e ← environment name
  look (·.scopeOf e)

/-- A step over the scope of a named environment. -/
def onScope (name : EnvName) (step : ScopeM α) : HostM α := do
  let e ← environment name
  match step (← look (·.scopeOf e)) with
  | .ok a t =>
    change fun s => { s with bases := s.bases.setIfInBounds e.base t.base }
    putEnvironment name { e with stack := t.stack }
    return a
  | .error f t =>
    change fun s => { s with bases := s.bases.setIfInBounds e.base t.base }
    putEnvironment name { e with stack := t.stack }
    fail f

/-- The table of a name; one that is not there yet is empty. -/
def table (name : String) : HostM SymbolTable :=
  look fun s => (Named.find name s.tables).getD .empty

/-- Puts a table under a name. -/
def putTable (name : String) (t : SymbolTable) : HostM Unit :=
  change fun s => { s with tables := Named.put name t s.tables }

/-- A step over a named table. -/
def onTable (name : String) (step : TableM Unit) : HostM Unit := do
  match step (← table name) with
  | .ok _ t => putTable name t
  | .error f t =>
    putTable name t
    fail f

end HostM

end ScriptHost
