import ScriptHost.Heap.Reach

/-!
# Images, locks and copies

Three walks over all that a value reaches. `Heap.image` reads the value off as a tree. `HeapM.lock`
locks every cell on the way; a cell that is locked already ends the walk, because what it reaches is
locked with it. `HeapM.copy` makes new cells for everything, unlocked, and `HeapM.cloneWith` the
same with the locks kept.

Each walk goes down one level at a time and is given more levels than a chain of distinct cells can
have.
-/

set_option autoImplicit false

namespace ScriptHost

namespace Heap

/-- The image of a value, down to so many levels. -/
def imageTo (h : Heap) : Nat → Handle → Image
  | 0, _ => .node true (.leaf .null)
  | n + 1, v => .node (h.isLocked v) ((h.data v).map (h.imageTo n))

/-- The image of a value. -/
def image (h : Heap) (v : Handle) : Image := h.imageTo h.levels v

/-- A value as text. -/
def display (h : Heap) (v : Handle) : String := (h.image v).text

end Heap

namespace HeapM

/-- Locks a value and all it reaches, down to so many levels. -/
def lockTo : Nat → Handle → HeapM Unit
  | 0, _ => return ()
  | n + 1, v => do
    if ← look (·.isLocked v) then return ()
    let parts ← look (·.parts v)
    lockCell v
    parts.forM (lockTo n)

/-- Locks a value and all it reaches. -/
def lock (v : Handle) : HeapM Unit := do lockTo (← look (·.levels)) v

/-- Copies a value down to so many levels; the copies are locked as their sources are, or not at
all. -/
def copyTo (keepLocks : Bool) : Nat → Handle → HeapM Handle
  | 0, _ => newLeaf .null
  | n + 1, v => do
    let locked ← look (·.isLocked v)
    let d ← (← dataOf v).mapM (copyTo keepLocks n)
    alloc ⟨d, keepLocks && locked⟩

/-- A copy that shares nothing with its source and is not locked. -/
def copy (v : Handle) : HeapM Handle := do copyTo false (← look (·.levels)) v

/-- The contents of a value with copies for parts. -/
def copyData (v : Handle) : HeapM (Data Handle) := do
  let levels ← look (·.levels)
  (← dataOf v).mapM (copyTo false levels)

/-- A new unlocked value with the contents of another one: a copy, or one that shares its parts. -/
def duplicate (kind : CloneKind) (v : Handle) : HeapM Handle := do
  match kind with
  | .deep => copy v
  | .minimal | .shallow => new (← dataOf v)

/-- A new value with the contents and the lock of another one; its parts are shared, or new with
their locks kept. -/
def cloneWith (kind : CloneKind) (v : Handle) : HeapM Handle := do
  match kind with
  | .deep => copyTo true (← look (·.levels)) v
  | .minimal | .shallow => alloc (← look (·.cell v))

end HeapM

end ScriptHost
