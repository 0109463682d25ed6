import ScriptHost.Heap.Basic

/-!
# Reachability

A value reaches its parts, their parts, and so on. `Heap.Reaches` is that relation and
`Heap.reaches` decides it by a search that looks at each cell once, so it ends on every heap, also
one with cycles. The search ends because each of its rounds takes one handle from the list of what
is left to look at, and adds the parts of a cell only the first time: the rounds are as many as
there are parts in all cells together, and one more.
-/

set_option autoImplicit false

namespace ScriptHost.Heap

/-- `Reaches h v w`: from `v` one comes to `w` by parts of parts. -/
inductive Reaches (h : Heap) : Handle → Handle → Prop where
  | refl (v : Handle) : Reaches h v v
  | step {v p w : Handle} (part : p ∈ h.parts v) (rest : Reaches h p w) : Reaches h v w

/-- The number of parts in all cells together. -/
def partCount (h : Heap) : Nat := h.cells.foldl (fun n c => n + c.data.parts.length) 0

/-- Looks for `target` among the pending handles and all they reach, apart from what has been
seen. -/
def search (h : Heap) (target : Handle) : Nat → List Handle → List Handle → Bool
  | 0, _, _ => false
  | _ + 1, _, [] => false
  | rounds + 1, seen, v :: pending =>
    if v = target then true
    else if seen.contains v then search h target rounds seen pending
    else search h target rounds (v :: seen) (h.parts v ++ pending)

/-- Whether `v` reaches `target`. -/
def reaches (h : Heap) (v target : Handle) : Bool := h.search target (h.partCount + 1) [] [v]

end ScriptHost.Heap

namespace ScriptHost.HeapM

/-- Refuses a value that contains the container which is to hold it: containers stay free of
cycles. -/
def rejectCycle (container value : Handle) : HeapM Unit := ask fun h =>
  if h.reaches value container then .error .containsItself else .ok ()

end ScriptHost.HeapM
