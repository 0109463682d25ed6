import ScriptHost.Host.State

/-!
# What an expression yields

An expression yields a value or a report. Where a value is needed, a report becomes a new one; where
a report is needed, a value becomes its image at that moment.
-/

set_option autoImplicit false

namespace ScriptHost

/-- A value or a report. -/
inductive Yield where
  | value (v : Handle)
  | report (r : Report)

namespace Yield

/-- The yield of what is done for its effect alone. -/
def nothing : Yield := .report .nothing

/-- The yield as a value. A report that stands for none becomes Null. -/
def toHandle : Yield → HostM Handle
  | .value v => return v
  | .report r => HostM.onHeap <|
    match r.toLeaf? with
    | some l => HeapM.newLeaf l
    | none => HeapM.newNull

/-- The yield as a report. -/
def toReport (h : Heap) : Yield → Report
  | .value v => .image (h.image v)
  | .report r => r

/-- A value that may be missing. -/
def ofOption : Option Handle → Yield
  | some v => .value v
  | none => .nothing

end Yield

namespace HostM

/-- Runs a step for its effect alone. -/
def effect (step : HostM Unit) : HostM Yield := do
  step
  return .nothing

/-- Runs a step over the heap for its effect alone. -/
def heapEffect (step : HeapM Unit) : HostM Yield := effect (onHeap step)

/-- Yields the value that a step over the heap makes or finds. -/
def heapValue (step : HeapM Handle) : HostM Yield := do return .value (← onHeap step)

/-- Yields what a step over the heap learns, as a report. -/
def heapReport {α : Type} (toReport : α → Report) (step : HeapM α) : HostM Yield := do
  return .report (toReport (← onHeap step))

/-- Yields a report about the state. -/
def lookReport (f : Host → Report) : HostM Yield := do return .report (← look f)

end HostM

end ScriptHost
