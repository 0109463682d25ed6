import ScriptHost.Eval.Operation
import ScriptHost.Heap.Describe
import ScriptHost.Library.Arithmetic
import ScriptHost.Library.Ordering
import ScriptHost.Library.Version

/-!
# What the routines do

`Routine.perform` runs a routine in the frame of its call: it looks its parameters up by name, like
any body, and yields one value. Parameters are converted in the order in which they are declared, so
the first bad one makes the fault.
-/

set_option autoImplicit false

namespace ScriptHost.Routine

open HostM

/-- A parameter as an integer. -/
def integerParam (name : String) : HostM Integer := do onHeap (HeapM.asInteger (← param name))

/-- A parameter as a real. -/
def realParam (name : String) : HostM Double := do onHeap (HeapM.asReal (← param name))

/-- A new value as the answer of a routine. -/
def answer (l : Leaf) : HostM Handle := onHeap (HeapM.newLeaf l)

/-- A Boolean as the answer of a routine. -/
def answerBoolean (b : Bool) : HostM Handle := answer (.boolean b)

/-- An integer as the answer of a routine. -/
def answerInteger (i : Integer) : HostM Handle := answer (.integer i none)

/-- A real as the answer of a routine. -/
def answerReal (r : Double) : HostM Handle := answer (.real r none)

/-- Null as the answer of a routine. -/
def answerNull : HostM Handle := onHeap HeapM.newNull

/-- The extreme among some values; Null among none. -/
def extreme (keep : Ordering) (values : List Handle) : HostM Handle := do
  match values with
  | [] => answerNull
  | v :: vs => onHeap (HeapM.ask fun h => Arithmetic.extreme h keep v vs)

/-- The class of fault that an index stands for. -/
def faultKindParam (name : String) : HostM FaultKind := do
  let index ← integerParam name
  match FaultKind.ofIndex? index.toInt with
  | some k => return k
  | none => fail (.noHandlerIndex index)

/-- One draw from the stream, which moves on. -/
def draw {α : Type} (f : RandomStream → α) : HostM α :=
  fun s => .ok (f s.stream) { s with stream := s.stream.advance }

/-- One draw from the stream, which moves on unless the draw is refused. -/
def tryDraw {α : Type} (f : RandomStream → Except Fault α) : HostM α := fun s =>
  match f s.stream with
  | .ok a => .ok a { s with stream := s.stream.advance }
  | .error e => .error (.fault e) s

/-- The overload of a function that a name and an arity stand for. -/
def overloadOf (name : String) (arity : Integer) : HostM Handle := do
  if arity.toInt < 0 then fail (.noSuchSymbol (name ++ "_" ++ arity.text))
  of ((← look (·.scope)).lookupOverload name arity.toInt.toNat)

/-- Runs a routine. -/
def perform (run : Runner) : Routine → HostM Handle
  | .copy => do onHeap (HeapM.copy (← param "value"))
  | .clone => do
    let v ← param "value"
    if (← onHeap (HeapM.kindOf v)) = .executable then fail .executableClone
    onHeap (HeapM.cloneWith .shallow v)
  | .convert k => do onHeap (HeapM.cast k (← param "value"))
  | .numeralOf => do
    let text ← onHeap (HeapM.asString (← param "str"))
    answer (← of (numeral text))
  | .isLocked => do
    let v ← param "arg"
    answerBoolean (← look (·.heap.isLocked v))
  | .lock => do
    onHeap (HeapM.lock (← param "arg"))
    answerNull
  | .isKind k => do answerBoolean ((← onHeap (HeapM.kindOf (← param "value"))) == k)
  | .typeOf => do onHeap (HeapM.typeOf (← param "expr"))
  | .typeId => do answerInteger (Int64.ofNat (← onHeap (HeapM.kindOf (← param "arg"))).number)
  | .isExactlyEqual => do
    let a ← param "lhs"
    let b ← param "rhs"
    answerBoolean (← look (·.heap.exactlyEqual a b))
  | .symbolExists => do
    let key ← onHeap (HeapM.asString (← param "id"))
    answerBoolean ((← look (·.scope)).find? key).isSome
  | .symbolOfFunction => do
    let name ← onHeap (HeapM.asString (← param "funcname"))
    overloadOf name (← integerParam "nparams")
  | .extremeElement keep => do extreme keep (← onHeap (HeapM.elements (← param "A")))
  | .extremeOfTwo keep => do extreme keep [← param "x", ← param "y"]
  | .extremeOfThree keep => do extreme keep [← param "x", ← param "y", ← param "z"]
  | .step up => do
    let x ← param "x"
    onHeap (do HeapM.step up x (← HeapM.newLeaf (.integer 1 none)))
    answerNull
  | .stepBy up => do
    onHeap (HeapM.step up (← param "x") (← param "amt"))
    answerNull
  | .append => do
    let _ ← operate run.watch .add (← param "A") (← param "elem")
    answerNull
  | .insert => do
    let position ← integerParam "pos"
    let _ ← operate run.watch (.insertAt position) (← param "A") (← param "elem")
    answerNull
  | .swap => do
    let a ← integerParam "index1"
    let b ← integerParam "index2"
    onHeap (HeapM.swap (← param "A") a b)
    answerNull
  | .sort => do
    HostM.sort run (← param "A") (← param "compareF")
    answerNull
  | .find => do answerInteger (← HostM.find run (← param "A") (← param "elem") (← param "compareF"))
  | .findSorted => do
    answerInteger (← HostM.findSorted run (← param "A") (← param "elem") (← param "compareF"))
  | .lessThan => do
    let a ← param "arg1"
    let b ← param "arg2"
    answerBoolean (← onHeap (HeapM.ask (·.lessThan a b)))
  | .greaterThan => do
    let a ← param "arg1"
    let b ← param "arg2"
    answerBoolean (← onHeap (HeapM.ask (·.lessThan b a)))
  | .equal => do
    let a ← param "arg1"
    let b ← param "arg2"
    answerBoolean (← onHeap (HeapM.ask (·.equals a b)))
  | .abs => do
    let x ← param "x"
    if (← onHeap (HeapM.kindOf x)) = .integer then
      answerInteger (← of (Arithmetic.magnitude (← integerParam "x")))
    else answerReal (← realParam "x").abs
  | .sqrt => do answerReal (← of (Arithmetic.root (← realParam "x")))
  | .ln => do answerReal (.ofFloat (← of (Arithmetic.ln (← realParam "x").toFloat)))
  | .log => do answerReal (.ofFloat (← of (Arithmetic.log (← realParam "x").toFloat)))
  | .logBase => do
    let x ← of (Arithmetic.positive (← realParam "x").toFloat)
    let base ← of (Arithmetic.logarithmBase (← realParam "base").toFloat)
    answerReal (.ofFloat (Logarithm.natural x / Logarithm.natural base))
  | .div => do
    let x ← integerParam "x"
    answerInteger (← of (Arithmetic.quotient x (← integerParam "y")))
  | .mod => do
    let x ← integerParam "x"
    answerInteger (← of (Arithmetic.remainder x (← integerParam "y")))
  | .test property => do answerBoolean (Arithmetic.holds property (← realParam "x").toFloat)
  | .round rule => do
    let x ← param "x"
    if (← onHeap (HeapM.kindOf x)) = .integer then answerInteger (← integerParam "x")
    else answerReal ((← realParam "x").map (Arithmetic.rounded rule))
  | .seed => do
    let seed ← integerParam "seed"
    change fun s => { s with stream := .ofSeed seed.toUInt64 }
    answerNull
  | .randomBoolean => do answerBoolean (← draw (·.boolean))
  | .randomInteger => do answerInteger (← draw (·.integer))
  | .randomIntegerBelow => do
    let bound ← integerParam "max"
    answerInteger (← tryDraw (·.below bound))
  | .randomIntegerBetween => do
    let least ← integerParam "min"
    let greatest ← integerParam "max"
    answerInteger (← tryDraw (·.between least greatest))
  | .randomReal => do answerReal (.ofFloat (← draw (·.uniform)))
  | .randomRealBelow => do
    let bound ← realParam "max"
    answerReal (← draw (·.realBetween 0 bound))
  | .randomRealBetween => do
    let least ← realParam "min"
    let greatest ← realParam "max"
    answerReal (← draw (·.realBetween least greatest))
  | .onErrorPush => do
    let kind ← faultKindParam "index"
    pushHandler kind (← param "call")
    answerNull
  | .onErrorInvoke => do
    answerBoolean (← invokeHandlers run (← faultKindParam "index") "OnErrorInvoke" "")
  | .onErrorPop => do
    let _ ← popHandler (← faultKindParam "index")
    answerNull
  | .terminate => fail .terminated
  | .makeVersion => do
    let major ← integerParam "major"
    let minor ← integerParam "minor"
    onHeap (Version.make (major, minor, ← integerParam "patch"))
  | .versionLessThan => do
    let a ← onHeap (Version.numbers (← param "lhs"))
    answerBoolean (Version.lessThan a (← onHeap (Version.numbers (← param "rhs"))))
  | .versionEqual => do
    let a ← onHeap (Version.numbers (← param "lhs"))
    answerBoolean (a == (← onHeap (Version.numbers (← param "rhs"))))
  | .versionAsString => do
    answer (.string (Version.text (← onHeap (Version.numbers (← param "version")))))

end ScriptHost.Routine
