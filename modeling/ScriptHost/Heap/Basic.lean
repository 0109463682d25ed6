import ScriptHost.Value.Image

/-!
# The heap

Values live in cells, and a handle names a cell. Two handles of one cell are one value seen twice,
so the heap is explicit: an array of cells that only grows. A cell is its contents and a lock; the
contents of a locked cell do not change.

A step over the heap is a `HeapM` action. It ends with a result or a fault, and either way it leaves
a heap, so what a failing operation did before it failed is part of its meaning. All changes go
through three primitives: `alloc` adds a cell, `write` replaces the contents of an unlocked cell,
`lockCell` locks one. The lemmas say what a read sees after each of them.
-/

set_option autoImplicit false

namespace ScriptHost

/-- The name of a cell. -/
structure Handle where
  index : Nat
deriving DecidableEq, Repr

/-- The contents of a value and whether they may change. -/
structure Cell where
  data : Data Handle
  locked : Bool

/-- The cells made so far, and how many callables. -/
structure Heap where
  cells : Array Cell
  stamps : Nat

namespace Heap

/-- The heap without cells. -/
def empty : Heap := ⟨#[], 0⟩

/-- The number of cells. -/
def size (h : Heap) : Nat := h.cells.size

/-- What stands where no cell has been made: a locked Null. -/
def absent : Cell := ⟨.leaf .null, true⟩

/-- The cell of a handle. -/
def cell (h : Heap) (v : Handle) : Cell := (h.cells[v.index]?).getD absent

/-- The contents of a value. -/
def data (h : Heap) (v : Handle) : Data Handle := (h.cell v).data

/-- Whether a value is locked. -/
def isLocked (h : Heap) (v : Handle) : Bool := (h.cell v).locked

/-- The kind of a value. -/
def kind (h : Heap) (v : Handle) : Kind := (h.data v).kind

/-- The parts of a value. -/
def parts (h : Heap) (v : Handle) : List Handle := (h.data v).parts

/-- The heap with a cell replaced. -/
def setCell (h : Heap) (v : Handle) (c : Cell) : Heap :=
  { h with cells := h.cells.setIfInBounds v.index c }

/-- The heap with one more cell. -/
def push (h : Heap) (c : Cell) : Heap := { h with cells := h.cells.push c }

/-- More levels than a chain of distinct cells can have. -/
def levels (h : Heap) : Nat := h.size + 1

/-! ## What a read sees -/

@[simp] theorem size_setCell (h : Heap) (v : Handle) (c : Cell) :
    (h.setCell v c).size = h.size := by
  simp [setCell, size]

@[simp] theorem size_push (h : Heap) (c : Cell) : (h.push c).size = h.size + 1 := by
  simp [push, size]

/-- A cell that is there can be replaced. -/
@[simp] theorem cell_setCell_self (h : Heap) (v : Handle) (c : Cell) (inside : v.index < h.size) :
    (h.setCell v c).cell v = c := by
  simp only [size] at inside
  simp [setCell, cell, inside]

/-- Replacing one cell leaves the others as they were. -/
theorem cell_setCell_ne (h : Heap) {v w : Handle} (c : Cell) (other : w ≠ v) :
    (h.setCell v c).cell w = h.cell w := by
  have : v.index ≠ w.index := fun e => other (by cases v; cases w; simp_all)
  simp [setCell, cell, Array.getElem?_setIfInBounds_ne this]

/-- A new cell stands behind the others. -/
@[simp] theorem cell_push_new (h : Heap) (c : Cell) : (h.push c).cell ⟨h.size⟩ = c := by
  simp [push, cell, size]

/-- Making one leaves those that there are as they were. -/
theorem cell_push_old (h : Heap) (c : Cell) {v : Handle} (old : v.index < h.size) :
    (h.push c).cell v = h.cell v := by
  simp only [size] at old
  simp [push, cell, Array.getElem?_push_lt old, Array.getElem?_eq_getElem old]

end Heap

/-- A step over the heap. -/
abbrev HeapM := EStateM Fault Heap

namespace HeapM

/-- An answer read off the heap. -/
def look {α : Type} (f : Heap → α) : HeapM α := fun h => .ok (f h) h

/-- An answer or a fault read off the heap. -/
def ask {α : Type} (f : Heap → Except Fault α) : HeapM α := fun h =>
  match f h with
  | .ok a => .ok a h
  | .error e => .error e h

/-- An answer or a fault. -/
def of {α : Type} (x : Except Fault α) : HeapM α := ask fun _ => x

/-- Makes a cell. -/
def alloc (c : Cell) : HeapM Handle := fun h => .ok ⟨h.size⟩ (h.push c)

/-- Makes an unlocked cell. -/
def new (d : Data Handle) : HeapM Handle := alloc ⟨d, false⟩

/-- Makes an unlocked cell without parts. -/
def newLeaf (l : Leaf) : HeapM Handle := new (.leaf l)

/-- Makes a locked Null. -/
def newNull : HeapM Handle := alloc ⟨.leaf .null, true⟩

/-- The contents of a value that is to be changed; a locked one is refused. -/
def writable (v : Handle) : HeapM (Data Handle) := ask fun h =>
  if h.isLocked v then .error .valueLocked else .ok (h.data v)

/-- Replaces the contents of a value; a locked one is refused. -/
def write (v : Handle) (d : Data Handle) : HeapM Unit := fun h =>
  if h.isLocked v then .error .valueLocked h else .ok () (h.setCell v ⟨d, false⟩)

/-- Locks one cell. -/
def lockCell (v : Handle) : HeapM Unit :=
  fun h => .ok () (h.setCell v { h.cell v with locked := true })

/-- Makes a callable with a stamp of its own. -/
def newCallable (name : String) (params : List Param) (body : Body) : HeapM Callable := fun h =>
  .ok ⟨h.stamps, name, params, body⟩ { h with stamps := h.stamps + 1 }

/-- Makes an executable of one callable; a parameter named twice is refused. -/
def newFunction (name : String) (params : List Param) (body : Body) : HeapM Handle := do
  of (Callable.checkParams params)
  let c ← newCallable name params body
  newLeaf (.executable (.single c))

/-- The contents of a value. -/
def dataOf (v : Handle) : HeapM (Data Handle) := look (·.data v)

/-- The kind of a value. -/
def kindOf (v : Handle) : HeapM Kind := look (·.kind v)

/-- A value as a Boolean. -/
def asBoolean (v : Handle) : HeapM Bool := ask fun h => (h.data v).asBoolean

/-- A value as an integer. -/
def asInteger (v : Handle) : HeapM Integer := ask fun h => (h.data v).asInteger

/-- A value as a real. -/
def asReal (v : Handle) : HeapM Double := ask fun h => (h.data v).asReal

/-- A value as text. -/
def asString (v : Handle) : HeapM String := ask fun h => (h.data v).asString

end HeapM

end ScriptHost
