import ScriptHost.Eval.Yield
import ScriptHost.Eval.Question
import ScriptHost.Library.Perform
import ScriptHost.Scope.Listing

/-!
# Commands

What a program can do with the state of its host by name: the random stream, the handlers, the
environments and the tables.
-/

set_option autoImplicit false

namespace ScriptHost

namespace HostM

/-! ## Environments -/

/-- Loads the bindings of a base table into another one. -/
def loadBase (source target : Nat) (kind : CloneKind) : HostM Unit := do
  let bindings ← onHeap ((← look (·.base source)).cloned kind)
  match SymbolTable.load bindings (← look (·.base target)) with
  | .ok _ t => change fun s => { s with bases := s.bases.setIfInBounds target t }
  | .error f t =>
    change fun s => { s with bases := s.bases.setIfInBounds target t }
    fail f

/-- Loads an environment into a named one: the base table, then the frames, outermost first. -/
def loadInto (source : Environment) (name : EnvName) (kind : CloneKind) : HostM Unit := do
  loadBase source.base (← environment name).base kind
  source.stack.frames.reverse.forM fun frame => do
    let copy ← onHeap (frame.duplicate kind)
    onScope name (Scope.push copy)

/-- Makes a clone of an environment under a name. The least clone shares the base table and has one
empty frame; the others have bindings and frames of their own. -/
def cloneInto (source : Environment) (name : EnvName) (kind : CloneKind) : HostM Unit := do
  match kind with
  | .minimal =>
    putEnvironment name ⟨source.base, .empty source.stack.limit⟩
    onScope name (Scope.push .empty)
  | .shallow | .deep =>
    putEnvironment name (← newEnvironment source.stack.limit)
    loadInto source name kind

/-- Whether two names stand for environments with one base table. -/
def sharesBase (a b : EnvName) : HostM Bool := do
  let first ← environment a
  return first.sharesBase (← environment b)

/-- The figures of an environment. -/
def envStats (s : Scope) : Report :=
  .record [("depth", .number s.stack.depth), ("max", .number s.stack.limit),
    ("attained", .number s.stack.attained), ("num", .number s.bindingCount),
    ("base", .number s.base.length), ("base_empty", .flag (s.base.length == 0))]

/-- A report about the scope of a named environment. -/
def scopeReport (name : EnvName) (f : Scope → Report) : HostM Yield := do
  return .report (f (← scope name))

/-- Drops the innermost frame; answers whether there was one. -/
def popFrame (name : EnvName) : HostM Bool := do
  let e ← environment name
  putEnvironment name { e with stack := e.stack.pop }
  return e.stack.depth ≠ 0

/-- Empties an environment. -/
def clearScope (name : EnvName) : HostM Unit := onScope name fun s => .ok () s.clear

/-! ## Tables -/

/-- A report about a named table. -/
def tableReport (name : String) (f : SymbolTable → Report) : HostM Yield := do
  return .report (f (← table name))

/-- The value under a symbol of a named table. -/
def tableValue (name : String) (s : Symbol) : HostM Yield := do
  return .ofOption ((← table name).get? s)

/-- The keys of a table and their number. -/
def tableKeys (t : SymbolTable) : Report :=
  .record [("len", .number t.length), ("empty", .flag (t.length == 0)), ("keys", .texts t.keys)]

end HostM

open HostM

/-- Draws from the random stream. -/
def Draw.perform : Draw → HostM Yield
  | .reseed seed => effect (change fun s => { s with stream := .ofSeed seed })
  | .state => lookReport fun s => .number s.stream.state.toNat
  | .word => do return .report (.number (← Routine.draw (·.word)).toNat)
  | .uniform | .real => do return .report (.real (← Routine.draw (·.uniform)))
  | .boolean => do return .report (.flag (← Routine.draw (·.boolean)))
  | .integer => do return .report (.integer (← Routine.draw (·.integer)))
  | .below bound => do return .report (.integer (← Routine.tryDraw (·.below bound)))
  | .between least greatest => do
    return .report (.integer (← Routine.tryDraw (·.between least greatest)))
  | .realBetween least greatest => do
    return .report (.real (← Routine.draw (·.realBetween least greatest)).toFloat)

/-- Carries out a command. -/
def Command.perform : Command → HostM Yield
  | .param name => do return .value (← HostM.param name)
  | .callDepth => lookReport (.number ·.callDepth)
  | .interrupt => effect (change fun s => { s with interrupted := true })
  | .resetInterrupt => effect (change fun s => { s with interrupted := false })
  | .isInterrupted => lookReport (.flag ·.interrupted)
  | .handlersPop kind => do return .report (.flag (← popHandler kind))
  | .handlersDepth kind => lookReport fun s => .number (s.handlersFor kind).length
  | .handlersSnapshot kind =>
    lookReport fun s => .list ((s.handlersFor kind).map fun v => .image (s.heap.image v))
  | .handlersClear => effect (change fun s => { s with handlers := [] })
  | .settings => lookReport (·.settings.report)
  | .draw d => d.perform
  | .newEnv env limit =>
    effect do putEnvironment env (← newEnvironment (limit.getD Stack.defaultLimit))
  | .pushFrame env => effect (onScope env (Scope.push .empty))
  | .popFrame env => do return .report (.flag (← HostM.popFrame env))
  | .pushTable env name => effect do
    let t ← table name
    change fun s => { s with tables := Named.drop name s.tables }
    onScope env (Scope.push t)
  | .lookup env key => do return .value (← of ((← scope env).lookup key))
  | .lookupOverload env name arity => do
    return .value (← of ((← scope env).lookupOverload name arity))
  | .symbolExists env key => scopeReport env fun s => .flag (s.find? key).isSome
  | .clearEnv env => effect (clearScope env)
  | .envStats env => scopeReport env HostM.envStats
  | .baseKeys env => scopeReport env fun s => .texts s.base.keys
  | .listing env => scopeReport env fun s => .text s.listing
  | .histogram env => scopeReport env fun s => .text s.histogram
  | .cloneEnv source target kind => effect do cloneInto (← environment source) target kind
  | .loadEnv source target kind => effect do loadInto (← environment source) target kind
  | .sharesBase a b => do return .report (.flag (← HostM.sharesBase a b))
  | .newTable name | .clearTable name => effect (putTable name .empty)
  | .tableGet name key => tableValue name (.plain key)
  | .tableOverload name key arity => tableValue name (.overload key arity)
  | .tableContains name key => tableReport name fun t => .flag (t.get? (.plain key)).isSome
  | .tableKeys name => tableReport name HostM.tableKeys
  | .duplicateTable source target kind => effect do
    putTable target (← onHeap ((← table source).duplicate kind))
  | .loadTable source target kind => effect do
    let bindings ← onHeap ((← table source).cloned kind)
    onTable target (SymbolTable.load bindings)

end ScriptHost
