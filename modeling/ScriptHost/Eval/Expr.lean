import ScriptHost.Eval.Command
import ScriptHost.Eval.Operation

/-!
# Evaluation

`Expr.eval` evaluates an expression against the state of a host. Operands are evaluated from left to
right, and the first fault ends the evaluation with whatever has been done by then.

The evaluator recurses on the text of the expression. A call leaves that text for the body of the
callable, so it goes through a `Runner`; `runBody` ties the knot, with a number of levels that calls
may be nested to. The number is no part of the language: `Expr.evalTop` gives more of them than the
limit of the stack lets a program use, as long as it leaves its own frames in place.
-/

set_option autoImplicit false

namespace ScriptHost

open HostM

/-! ## Pieces -/

/-- Makes the value of a literal. -/
def Literal.make : Literal → HeapM Handle
  | .null => HeapM.newNull
  | .placeholder => HeapM.newLeaf .null
  | .boolean b => HeapM.newLeaf (.boolean b)
  | .integer i => HeapM.newLeaf (.integer i none)
  | .real r => HeapM.newLeaf (.real r none)
  | .string s => HeapM.newLeaf (.string s)
  | .type spec => do HeapM.newLeaf (.type (← HeapM.of spec.build))
  | .numeral text => do HeapM.newLeaf (← HeapM.of (ScriptHost.numeral text))

namespace HostM

/-- The value in a register, Null if nothing was put there. -/
def held (register : String) : HostM Handle := do
  match ← look fun s => Named.find register s.registers with
  | some v => return v
  | none => onHeap HeapM.newNull

/-- Puts a value into a register. -/
def hold (register : String) (v : Handle) : HostM Unit :=
  change fun s => { s with registers := Named.put register v s.registers }

/-- Runs a step so many times, and yields what the last one does. -/
def times : Nat → HostM Yield → HostM Yield
  | 0, _ => return .nothing
  | 1, step => step
  | n + 1, step => do
    let _ ← step
    times n step

/-- The yield of a step as a report at its end. -/
def reported (step : HostM Yield) : HostM Report := do
  let y ← step
  look fun s => y.toReport s.heap

/-- The outcome of a step as a report, whether it fails or not. -/
def attempt (step : HostM Yield) : HostM Yield := fun s =>
  match reported step s with
  | .ok r s => .ok (.report (.ok r)) s
  | .error (.fault f) s => .ok (.report (.fault f)) s
  | .error .exhausted s => .error .exhausted s

/-- The image of a value. -/
def imageOf (v : Handle) : HostM Report := look fun s => .image (s.heap.image v)

/-- Resolves a call and binds its parameters; the frame is dropped again. -/
def callStates (name : String) (args : List Handle) : HostM Yield := do
  let c ← resolve name args.length
  let params ← bindParams c args
  let depth ← look (·.env.stack.depth)
  let images ← params.mapM imageOf
  let _ ← popFrame .host
  return .report <| .record
    [("callable", .text c.text), ("states", .texts ["Resolved", "FrameBound"]),
      ("depth", .number depth), ("params", .list images)]

/-- How a body at top level ended, as a report. -/
def outcomeReport (body : HostM Handle) : HostM Yield := do
  match ← outcome body with
  | .completed v =>
    return .report (.record [("outcome", .text "Completed"), ("completed", .flag true),
      ("value", ← imageOf v)])
  | .aborted f =>
    return .report <| .record
      [("outcome", .text "Aborted"), ("completed", .flag false), ("diagnostic", .text f.diagnostic)]
  | .terminated =>
    return .report (.record [("outcome", .text "Terminated"), ("completed", .flag false)])

/-! ## Frames for a while -/

/-- Runs a step with one more frame, which is dropped at the end, whether the step fails or not. -/
def framed {α : Type} (env : EnvName) (step : HostM α) : HostM α := do
  onScope env (Scope.push .empty)
  fun s =>
    match step s with
    | .ok a s =>
      match popFrame env s with
      | .ok _ s => .ok a s
      | .error e s => .error e s
    | .error e s =>
      match popFrame env s with
      | .ok _ s => .error e s
      | .error _ s => .error e s

/-- The number of frames of a named environment. -/
def depthOf (env : EnvName) : HostM Nat := do return (← environment env).stack.depth

/-- What a key stands for, or the fault of looking it up. -/
def foundReport (env : EnvName) (key : String) : HostM Report := do
  match (← scope env).lookup key with
  | .ok v => imageOf v
  | .error f => return .fault f

/-- The number of frames with one more, or the fault of pushing it. -/
def innerReport (env : EnvName) : HostM Report := fun s =>
  match framed env (depthOf env) s with
  | .ok n s => .ok (.number n) s
  | .error (.fault f) s => .ok (.fault f) s
  | .error .exhausted s => .error .exhausted s

/-- Binds values in a frame and looks keys up in it. -/
def scopeReports (env : EnvName) (bindings : List (String × Handle)) (keys : List String) :
    HostM Yield := framed env do
  bindings.forM fun (key, v) => Place.bind v (.symbol env key)
  let depth ← depthOf env
  let inner ← innerReport env
  let found ← keys.mapM (foundReport env)
  return .report (.record [("depth", .number depth), ("inner", inner), ("found", .list found)])

end HostM

/-! ## Expressions -/

mutual

/-- Evaluates an expression. -/
def Expr.eval (run : Runner) : Expr → HostM Yield
  | .literal l => heapValue l.make
  | .ask q => do return .report (← of q.answer)
  | .command c => do
    run.watch (.command c)
    c.perform
  | .raise f => fail f
  | .unary op e => do
    let v ← (← e.eval run).toHandle
    op.perform v
  | .binary op a b => do
    let x ← (← a.eval run).toHandle
    let y ← (← b.eval run).toHandle
    operate run.watch op x y
  | .insertKey t k e => do
    let target ← (← t.eval run).toHandle
    let key ← (← k.eval run).toHandle
    let v ← (← e.eval run).toHandle
    heapEffect (HeapM.insertKey target key v)
  | .setElements t es => do
    let target ← (← t.eval run).toHandle
    let vs ← Expr.evalAll run es
    run.watch (.setElements target vs)
    heapEffect (HeapM.setElements target vs)
  | .bind place e => do
    let v ← (← e.eval run).toHandle
    run.watch (.bind place)
    effect (place.bind v)
  | .array start es policy => do
    let vs ← Expr.evalAll run es
    heapValue (HeapM.new (.array (.ofItems start vs policy)))
  | .dictionary entries => do
    let d ← onHeap (HeapM.new (.dictionary .empty))
    Expr.evalEntries run d entries
    return .value d
  | .record members => do
    let ms ← Expr.evalNamed run members
    heapValue (HeapM.new (.record (.ofMembers ms)))
  | .function name params body => heapValue (HeapM.newFunction name params (.script body))
  | .held register => do return .value (← HostM.held register)
  | .hold register e => do
    let v ← (← e.eval run).toHandle
    HostM.hold register v
    return .value v
  | .sequence es => Expr.evalLast run es
  | .times n e => HostM.times n (e.eval run)
  | .branch c a b => do
    let v ← (← c.eval run).toHandle
    if ← onHeap (HeapM.asBoolean v) then a.eval run else b.eval run
  | .attempt e => HostM.attempt (e.eval run)
  | .log e => do
    let r ← reported (e.eval run)
    effect (change fun s => { s with log := r :: s.log })
  | .call name args => do
    let vs ← Expr.evalAll run args
    return .value (← HostM.call run name vs)
  | .callValue f args => do
    let callee ← (← f.eval run).toHandle
    let vs ← Expr.evalAll run args
    return .value (← HostM.callValue run callee vs)
  | .callStates name args => do
    let vs ← Expr.evalAll run args
    HostM.callStates name vs
  | .guard location body => do return .value (← HostM.guard run location (Expr.evalBody run body))
  | .run body => outcomeReport (Expr.evalBody run body)
  | .invokeHandlers kind location message => do
    return .report (.flag (← HostM.invokeHandlers run kind location message))
  | .scope env bindings keys => do
    let vs ← Expr.evalNamed run bindings
    scopeReports env vs keys

/-- The values of expressions, in order. -/
def Expr.evalAll (run : Runner) : List Expr → HostM (List Handle)
  | [] => return []
  | e :: es => do
    let v ← (← e.eval run).toHandle
    return v :: (← Expr.evalAll run es)

/-- The values of named expressions, in order. -/
def Expr.evalNamed (run : Runner) : List (String × Expr) → HostM (List (String × Handle))
  | [] => return []
  | (n, e) :: es => do
    let v ← (← e.eval run).toHandle
    return (n, v) :: (← Expr.evalNamed run es)

/-- Puts entries into a dictionary one after the other. -/
def Expr.evalEntries (run : Runner) (target : Handle) : List (Expr × Expr) → HostM Unit
  | [] => return ()
  | (k, e) :: es => do
    let key ← (← k.eval run).toHandle
    let v ← (← e.eval run).toHandle
    onHeap (HeapM.insertKey target key v)
    Expr.evalEntries run target es

/-- The yield of the last of some expressions. -/
def Expr.evalLast (run : Runner) : List Expr → HostM Yield
  | [] => return .nothing
  | [e] => e.eval run
  | e :: es => do
    let _ ← e.eval run
    Expr.evalLast run es

/-- The value of a body: that of its last expression, Null if there is none. -/
def Expr.evalBody (run : Runner) : List Expr → HostM Handle
  | [] => onHeap HeapM.newNull
  | [e] => do (← e.eval run).toHandle
  | e :: es => do
    let _ ← (← e.eval run).toHandle
    Expr.evalBody run es

end

/-! ## Bodies -/

/-- Runs a body in the frame at hand, with so many levels for calls and a watch over what is
done. -/
def runBody (watch : Act → HostM Unit) : Nat → Body → HostM Handle
  | 0, _ => throw .exhausted
  | n + 1, .routine r => r.perform ⟨runBody watch n, watch⟩
  | n + 1, .script code => Expr.evalBody ⟨runBody watch n, watch⟩ code

/-- Runs bodies with so many levels under a watch. -/
def Runner.watched (watch : Act → HostM Unit) (levels : Nat) : Runner :=
  ⟨runBody watch levels, watch⟩

/-- Runs bodies with so many levels and lets every act pass. -/
def Runner.free (levels : Nat) : Runner := .watched (fun _ => return ()) levels

/-- Levels beyond the limit of the stack. A program that drops no frames of its own needs none of
them (`Host.Poised.eval`). One that does can use them up, and is given up then: that is no fault,
nothing catches it, and nothing that has ended would have ended otherwise with more levels
(`approx_levels`). -/
def spareLevels : Nat := 1000000

/-- Evaluates an expression at top level. -/
def Expr.evalTop (e : Expr) : HostM Yield := do
  let levels ← look fun s => s.settings.stackLimit + spareLevels
  e.eval (.free levels)

end ScriptHost
