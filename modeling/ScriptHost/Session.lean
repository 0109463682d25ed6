import ScriptHost.Eval.Expr
import ScriptHost.Library.Install

/-!
# Sessions

A session starts a host and evaluates one expression after the other against it. A fault ends its
own step only, and what the step did before stays. Each step has an entry in the record of the
session: its outcome, what it logged, and the images of the watched registers after it.
-/

set_option autoImplicit false

namespace ScriptHost

/-- What is asked of a host. -/
structure Session where
  settings : Settings
  /-- Whether the host starts without the library. -/
  bare : Bool
  steps : List Expr
  watch : Option (List String)

/-- The record of a step. -/
structure Entry where
  outcome : Except Halt Report
  log : List Report
  watched : Option (List Image)

namespace Session

/-- The image of a register; an empty one shows a locked Null. -/
def register (s : Host) (name : String) : Image :=
  match Named.find name s.registers with
  | some v => s.heap.image v
  | none => .node true (.leaf .null)

/-- The record of a step that ended in a given state. -/
def entry (watch : Option (List String)) (outcome : Except Halt Report) (s : Host) : Entry :=
  ⟨outcome, s.log.reverse, watch.map fun names => names.map (register s)⟩

/-- Evaluates one expression with an empty log. -/
def step (watch : Option (List String)) (s : Host) (e : Expr) : Entry × Host :=
  match HostM.reported e.evalTop { s with log := [] } with
  | .ok r s => (entry watch (.ok r) s, s)
  | .error halt s => (entry watch (.error halt) s, s)

/-- The state after all steps, from a given state. -/
def after : Host → List Expr → Host
  | s, [] => s
  | s, e :: es => after (step none s e).2 es

/-- The records of all steps, from a given state. -/
def records (watch : Option (List String)) : Host → List Expr → List Entry
  | _, [] => []
  | s, e :: es =>
    let (record, s) := step watch s e
    record :: records watch s es

/-- The host that a session starts with. -/
def host (session : Session) : Host :=
  if session.bare then .bare session.settings else .start session.settings

/-- Runs a session. -/
def run (session : Session) : List Entry := records session.watch session.host session.steps

end Session

end ScriptHost
