import ScriptHost.Eval.Yield
import ScriptHost.Heap.Compare
import ScriptHost.Heap.Describe
import ScriptHost.Host.Call

/-!
# Operations on values

What a program can do with one value, with two, and with a value and a place to bind it.
-/

set_option autoImplicit false

namespace ScriptHost

open HostM

/-! ## Reports about a value -/

/-- The names of the properties of a kind. -/
def Kind.properties (k : Kind) : List String :=
  [k.name.toLower] ++ if k.isScalar then ["scalar"] else []

/-- The kind of a value, and what it can be called with. -/
def Data.predicates {ρ : Type} (d : Data ρ) : Report :=
  .record [("is", .texts d.kind.properties),
    ("arities", .list (d.arities.map fun (n : Nat) => .number n)),
    ("callable1", .flag (d.arities.contains 1))]

/-- The figures of a value, by what it is. -/
def Heap.inspect (h : Heap) (v : Handle) : Report :=
  match h.data v with
  | .array s =>
    .record [("len", .number s.length), ("empty", .flag s.items.isEmpty),
      ("policy", .number s.policy.code), ("typed", .flag s.element.isSome)]
  | .dictionary d =>
    .record [("len", .number d.length), ("empty", .flag d.entries.isEmpty),
      ("keys", .texts (d.keys.map Key.text)), ("values", .texts (d.values.map h.display)),
      ("contains", .flag (d.keys.all fun k => (d.get? k).isSome))]
  | .record r =>
    .record [("len", .number r.length), ("empty", .flag r.members.isEmpty),
      ("names", .texts r.names), ("type", .text? r.typeName)]
  | .leaf (.executable e) =>
    .record [("name", .text e.name), ("arities", .list (e.arities.map fun (n : Nat) => .number n)),
      ("callables", .texts (e.overloads.map Callable.text))]
  | .leaf (.type t) => .record [("kind", .text t.kind.name), ("display", .text t.text)]
  | .leaf l => .record [("kind", .text l.kind.name)]

/-- The images of some values. -/
def imagesOf (vs : List Handle) : HeapM Report :=
  HeapM.look fun h => .list (vs.map fun v => .image (h.image v))

/-! ## Operations -/

/-- Carries out an operation on one value. -/
def Unary.perform (v : Handle) : Unary → HostM Yield
  | .locked => heapValue do
    HeapM.lock v
    return v
  | .lock => heapEffect (HeapM.lock v)
  | .elementAt index => heapValue (HeapM.elementAt v index)
  | .member name => heapValue (HeapM.member v name)
  | .declare => heapValue (HeapM.declareFrom v)
  | .copy => heapValue (HeapM.copy v)
  | .duplicate how => heapValue (HeapM.duplicate how v)
  | .cloneWith how => heapValue (HeapM.cloneWith how v)
  | .cast k => heapValue (HeapM.cast k v)
  | .typeOf => heapValue (HeapM.typeOf v)
  | .swap a b => heapEffect (HeapM.swap v a b)
  | .elements => heapReport id do imagesOf (← HeapM.elements v)
  | .keys => heapReport id do imagesOf (← HeapM.keys v)
  | .bounds =>
    heapReport (fun (start, finish) => .list [.integer start, .integer finish]) (HeapM.bounds v)
  | .resolve index => heapReport (.number ·) (HeapM.resolve v index)
  | .length => heapReport (.number ·) (HeapM.length v)
  | .members => heapReport .texts (HeapM.members v)
  | .isLocked => lookReport fun s => .flag (s.heap.isLocked v)
  | .kind => lookReport fun s => .list [.text (s.heap.kind v).name, .number (s.heap.kind v).number]
  | .display => lookReport fun s => .text (s.heap.display v)
  | .debug => lookReport fun s => .text (s.heap.image v).debugText
  | .asBoolean => heapReport .flag (HeapM.asBoolean v)
  | .asInteger => heapReport .integer (HeapM.asInteger v)
  | .asReal => heapReport (fun r => .real r.toFloat) (HeapM.asReal v)
  | .asString => heapReport .text (HeapM.asString v)
  | .predicates => lookReport fun s => (s.heap.data v).predicates
  | .inspect => lookReport fun s => s.heap.inspect v

/-- An order as a number. -/
def orderReport : Ordering → Report
  | .lt => .number (-1)
  | .eq => .number 0
  | .gt => .number 1

/-- Carries out an operation on two values. -/
def Binary.perform (a b : Handle) : Binary → HostM Yield
  | .assign => heapEffect (HeapM.assign a b)
  | .add => heapEffect (HeapM.add a b)
  | .insertAt position => heapEffect (HeapM.insertAt a b position)
  | .element => heapValue (HeapM.element a b)
  | .getKey => do return .ofOption (← onHeap (HeapM.getKey a b))
  | .removeKey => do return .ofOption (← onHeap (HeapM.removeKey a b))
  | .containsKey => heapReport (fun found => .flag found.isSome) (HeapM.getKey a b)
  | .compare => heapReport orderReport (HeapM.ask (·.compare a b))
  | .equals => heapReport .flag (HeapM.ask (·.equals a b))
  | .lessThan => heapReport .flag (HeapM.ask (·.lessThan a b))
  | .exactlyEqual => lookReport fun s => .flag (s.heap.exactlyEqual a b)
  | .alike => lookReport fun s => .flag (s.heap.alike a b)
  | .same => return .report (.flag (a == b))
  | .reaches => lookReport fun s => .flag (s.heap.reaches a b)

/-- Carries out an operation on two values, of which the watch is told. -/
def HostM.operate (watch : Act → HostM Unit) (op : Binary) (a b : Handle) : HostM Yield := do
  watch (.operate op a b)
  op.perform a b

/-- Binds a value in a place. -/
def Place.bind (v : Handle) : Place → HostM Unit
  | .symbol env key => do onScope env (Scope.insert key v (← onHeap (HeapM.dataOf v)))
  | .plainSymbol env key => onScope env (Scope.insertPlain key v)
  | .tableSymbol table key => do
    let d ← onHeap (HeapM.dataOf v)
    onTable table (SymbolTable.bindAll (SymbolTable.symbolsOf key d) v)
  | .tablePlain table key => onTable table (SymbolTable.bind (.plain key) v)
  | .handler kind => pushHandler kind v

end ScriptHost
