import ScriptHost.Heap.Container
import ScriptHost.Heap.Declare
import ScriptHost.Heap.Assign
import ScriptHost.Host.State

/-!
# Calls and handlers

A call selects the overload for the number of its arguments, pushes a frame that binds every
parameter, runs the body, and cuts the stack back to where it was, whether the body returns or
fails. A parameter by reference is the argument itself; one by value is a copy. An interrupted host
starts no call.

Everything here is given a `Runner`, which runs a body in the frame at hand. The evaluator supplies
itself for it, one level deeper. A runner is also told of every command, every binding, every
operation on two values and every replacement of the elements of an array before it is carried out,
and can end the evaluation there: what a program does can be watched.

A fault can be offered to the handlers for its class, newest first, each of which accepts or
declines it by a Boolean; the first that declines ends the matter. Faults of class `terminate` are
offered to nobody.
-/

set_option autoImplicit false

namespace ScriptHost

/-- What a program is about to do to its host, or to a value. -/
inductive Act where
  | command (c : Command)
  | bind (place : Place)
  | operate (op : Binary) (a b : Handle)
  | setElements (target : Handle) (items : List Handle)

/-- Runs a body in the frame at hand, and watches what is done on the way. -/
structure Runner where
  body : Body → HostM Handle
  /-- Is told of an act before it is carried out, and lets it pass or ends the evaluation. -/
  watch : Act → HostM Unit

/-- The callable of a value for so many arguments. -/
def HeapM.callable (v : Handle) (arity : Nat) : HeapM Callable := ask fun h =>
  match h.data v with
  | .leaf (.executable e) =>
    match e.get? arity with
    | some c => .ok c
    | none => .error (.noSuchSymbol (mangle e.name arity))
  | d => .error (.cannotCast d.kind.name Kind.executable.name)

namespace HostM

/-- The value under a key in the host's own environment. -/
def param (name : String) : HostM Handle := do of ((← look (·.scope)).lookup name)

/-- The callable that a name stands for with so many arguments. -/
def resolve (name : String) (arity : Nat) : HostM Callable := do
  let v ← of ((← look (·.scope)).lookupOverload name arity)
  onHeap (HeapM.callable v arity)

/-- An argument as its parameter takes it. -/
def bound (mode : BindingMode) (arg : Handle) : HostM Handle :=
  match mode with
  | .reference => return arg
  | .value => onHeap (HeapM.copy arg)

/-- The bindings of parameters to arguments, in order. -/
def bindings (params : List Param) (args : List Handle) : HostM (List (Symbol × Handle)) :=
  (params.zip args).mapM fun (p, a) => do return (.plain p.name, ← bound p.mode a)

/-- The frame of some bindings. -/
def frame (bindings : List (Symbol × Handle)) : HostM SymbolTable :=
  match SymbolTable.load bindings .empty with
  | .ok _ t => return t
  | .error f _ => fail f

/-- Pushes the frame of a call, and yields the bound values. -/
def bindParams (c : Callable) (args : List Handle) : HostM (List Handle) := do
  let bs ← bindings c.params args
  onScope .host (Scope.push (← frame bs))
  return bs.map (·.2)

/-- Counts a call in while a step runs. -/
def counted (step : HostM Handle) : HostM Handle := do
  change fun s => { s with callDepth := s.callDepth + 1 }
  always step fun s => { s with callDepth := s.callDepth - 1 }

/-- Runs a callable with arguments. -/
def execute (run : Runner) (c : Callable) (args : List Handle) : HostM Handle := do
  if ← look (·.interrupted) then fail .interrupted
  let depth ← look (·.env.stack.depth)
  let _ ← bindParams c args
  always (counted (run.body c.body)) (·.unwind depth)

/-- Calls the overload of a name. -/
def call (run : Runner) (name : String) (args : List Handle) : HostM Handle := do
  execute run (← resolve name args.length) args

/-- Calls a value. -/
def callValue (run : Runner) (callee : Handle) (args : List Handle) : HostM Handle := do
  execute run (← onHeap (HeapM.callable callee args.length)) args

/-! ## Handlers -/

/-- Installs a handler. Classes that name no failure, and faults that nobody is offered, have
none. -/
def pushHandler (kind : FaultKind) (v : Handle) : HostM Unit := do
  if kind = .null ∨ kind = .ok ∨ kind = .terminate then fail (.handlerRefused kind)
  let k ← onHeap (HeapM.kindOf v)
  if k ≠ .executable then fail (.cannotCast k.name Kind.executable.name)
  change fun s => { s with handlers := (kind, v) :: s.handlers }

/-- Removes the newest handler for a class; answers whether there was one. -/
def popHandler (kind : FaultKind) : HostM Bool := do
  let any ← look fun s => !(s.handlersFor kind).isEmpty
  change fun s => { s with handlers := s.handlers.eraseP (·.1 = kind) }
  return any

/-- The type of the structure that a handler is given. -/
def errorType : TypeDesc := .record (some "ErrorT") [("Location", .string), ("Message", .string)]

/-- Assigns a new text to a member of a structure. -/
def setText (report : Handle) (name text : String) : HeapM Unit := do
  HeapM.assign (← HeapM.member report name) (← HeapM.newLeaf (.string text))

/-- The structure that handlers are given. -/
def errorReport (location message : String) : HeapM Handle := do
  let report ← HeapM.declare errorType
  setText report "Location" location
  setText report "Message" message
  return report

/-- The arguments for a handler: the report if it takes one. -/
def handlerArgs (report handler : Handle) : HostM (List Handle) := do
  let d ← onHeap (HeapM.dataOf handler)
  return if d.arities.contains 1 then [report] else []

/-- Offers a report to one handler after the other; answers whether all accept. -/
def offer (run : Runner) (report : Handle) : List Handle → HostM Bool
  | [] => return true
  | handler :: rest => do
    let answer ← callValue run handler (← handlerArgs report handler)
    if ← onHeap (HeapM.asBoolean answer) then offer run report rest else return false

/-- Offers a fault to the handlers for its class; answers whether there are any and all accept. -/
def invokeHandlers (run : Runner) (kind : FaultKind) (location message : String) : HostM Bool := do
  match ← look (·.handlersFor kind) with
  | [] => return false
  | handlers =>
    let report ← onHeap (errorReport location message)
    offer run report handlers

/-! ## Guards and outcomes -/

/-- Runs a statement. A fault of it that can be caught is offered to the handlers, after the frames
it left have been dropped; if they accept it, the statement yields Null. -/
def guard (run : Runner) (location : String) (statement : HostM Handle) : HostM Handle := fun s =>
  let depth := s.env.stack.depth
  match statement s with
  | .ok v s => .ok v s
  | .error .exhausted s => .error .exhausted s
  | .error (.fault f) s =>
    if f.isCatchable then
      match invokeHandlers run f.kind location f.message (s.unwind depth) with
      | .ok true s => onHeap HeapM.newNull s
      | .ok false s => .error (.fault f) s
      | .error e s => .error e s
    else .error (.fault f) (s.unwind depth)

/-- How a body at top level ended. -/
inductive Outcome where
  | completed (v : Handle)
  | aborted (f : Fault)
  | terminated

/-- Runs a body to its outcome and drops the frames it left. -/
def outcome (body : HostM Handle) : HostM Outcome := fun s =>
  let depth := s.env.stack.depth
  match body s with
  | .ok v s => .ok (.completed v) (s.unwind depth)
  | .error .exhausted s => .error .exhausted s
  | .error (.fault f) s =>
    if f.kind = .terminate then .ok .terminated (s.unwind depth)
      else .ok (.aborted f) (s.unwind depth)

end HostM

end ScriptHost
