import ScriptHost.Proofs.Heap.Assigned
import ScriptHost.Proofs.Heap.Confined
import ScriptHost.Proofs.Separation

/-!
# Write footprints

An operation on values changes few of the cells that are there, whatever cells are shared.
`Operation.Footprint` says which: none for an operation that reads or makes values, the container
for one that changes a container, the cells that become locked for a lock, and for an assignment the
unlocked cells that the target spans, without the arrays and structures on the way.
`Host.operation_footprint` is the law: nothing else changes, and a lock changes locks alone.

The footprint of an assignment is read off the heap in which it begins. The elements of an array are
taken before the first of them is assigned to, and one of them may then be assigned to through
another; what it has been given in between is new, so nothing is added to the footprint.
-/

set_option autoImplicit false

namespace ScriptHost

open HostM

/-- The cells that an operation can change, of those that are there. -/
def Operation.Footprint (h : Heap) : Operation → Handle → Prop
  | .unary .lock v, w | .unary .locked v, w => h.Reaches v w ∧ h.isLocked w = false
  | .unary (.swap _ _) target, w => w = target
  | .binary .assign target _, w =>
    h.Spans target w ∧ (h.data w).isEntered = false ∧ h.isLocked w = false
  | .binary .add target _, w | .binary (.insertAt _) target _, w | .binary .element target _, w
  | .binary .removeKey target _, w => w = target
  | .insertKey target _ _, w | .setElements target _, w => w = target
  | _, _ => False

/-! ## Operations of the heap in a host -/

/-- The host with a heap that differs from its own within `S`. -/
def Host.Touched (S : Handle → Prop) (s t : Host) : Prop :=
  ∃ h, t = { s with heap := h } ∧ s.heap.Confined S h

namespace HostM

variable {α : Type} {S : Handle → Prop} {s : Host}

theorem endState_onHeap (m : HeapM α) (s : Host) :
    endState (onHeap m) s = { s with heap := endState m s.heap } := by
  cases ends : m s.heap with
  | ok a h => simp only [endState, onHeap, ends]
  | error f h => simp only [endState, onHeap, ends]

/-- What is made of a result does not count. -/
theorem endState_map {β : Type} (m : HostM α) (f : α → β) (s : Host) :
    endState (do return f (← m)) s = endState m s := by
  cases ends : m s with
  | ok a t => simp only [endState, Bind.bind, EStateM.bind, ends, Pure.pure, EStateM.pure]
  | error e t => simp only [endState, Bind.bind, EStateM.bind, ends]

/-- An operation touches what it writes to. -/
theorem touched_onHeap (m : HeapM α) [writes : HeapM.Writes S m] :
    s.Touched S (endState (onHeap m) s) :=
  ⟨_, endState_onHeap m s, (writes.leads s.heap).atEnd.2⟩

theorem touched_value (m : HeapM Handle) [HeapM.Writes S m] :
    s.Touched S (endState (heapValue m) s) := by
  rw [heapValue, endState_map]
  exact touched_onHeap m

theorem touched_effect (m : HeapM Unit) [HeapM.Writes S m] :
    s.Touched S (endState (heapEffect m) s) := by
  rw [heapEffect, effect, endState_map (onHeap m) fun _ => Yield.nothing]
  exact touched_onHeap m

theorem touched_report (f : α → Report) (m : HeapM α) [HeapM.Writes S m] :
    s.Touched S (endState (heapReport f m) s) := by
  rw [heapReport, endState_map (onHeap m) fun a => Yield.report (f a)]
  exact touched_onHeap m

/-- A literal is made. -/
instance writes_make (l : Literal) : HeapM.Writes S l.make := by
  cases l <;> unfold Literal.make <;> infer_instance

instance writes_imagesOf (vs : List Handle) : HeapM.Writes S (imagesOf vs) := HeapM.writes_look _

/-- A report on the state changes nothing. -/
theorem touched_look (f : Host → Report) : s.Touched S (endState (lookReport f) s) :=
  ⟨s.heap, rfl, .refl _⟩

end HostM

/-! ## The law -/

namespace Operation

variable {s : Host}

/-- A value is locked in one way, whatever is yielded. -/
theorem endState_lock {op : Unary} (isLock : op = .lock ∨ op = .locked) (v : Handle) (s : Host) :
    endState (op.perform v) s = { s with heap := endState (HeapM.lock v) s.heap } := by
  obtain ⟨h, run, -⟩ := Heap.run_lock s.heap v
  rcases isLock with rfl | rfl
  · rw [Unary.perform, heapEffect, effect,
      endState_map (onHeap (HeapM.lock v)) fun _ => Yield.nothing, endState_onHeap]
  · rw [Unary.perform, heapValue, endState_map, endState_onHeap]
    simp only [endState, Bind.bind, EStateM.bind, run, Pure.pure, EStateM.pure]

/-- A lock touches what is below its value and is not locked yet. -/
theorem touched_lock {op : Unary} (isLock : op = .lock ∨ op = .locked) {v : Handle}
    (formed : s.heap.WellFormed) :
    s.Touched (fun w => s.heap.Reaches v w ∧ s.heap.isLocked w = false)
      (endState (op.perform v) s) := by
  obtain ⟨h, run, size, data, locked⟩ := Heap.isLocked_lock formed v
  have ends : endState (HeapM.lock v) s.heap = h := by rw [endState, run]
  refine ⟨h, by rw [endState_lock isLock, ends], Nat.le_of_eq size.symm,
    fun w _ outside => Heap.cell_ext (data w) ?_⟩
  rw [Bool.eq_iff_iff, locked w]
  constructor
  · rintro (before | reach)
    · exact before
    · by_contra unlocked
      exact outside ⟨reach, by simpa using unlocked⟩
  · exact .inl

/-- An assignment, whatever cells its target and its source share. -/
theorem touched_assign {target source : Handle} (formed : s.heap.WellFormed) :
    s.Touched (fun w => s.heap.Spans target w ∧ (s.heap.data w).isEntered = false ∧
      s.heap.isLocked w = false) (endState (heapEffect (HeapM.assign target source)) s) := by
  have assigned :
      s.heap.Assigned (s.heap.Spans target) (endState (HeapM.assign target source) s.heap) :=
    Heap.assigned_assign formed.parts (s.heap.spans_entire target) (.refl target)
  rw [heapEffect, effect, endState_map (onHeap _) fun _ => Yield.nothing]
  refine ⟨_, endState_onHeap _ s, assigned.size_le, fun w made outside => ?_⟩
  rcases assigned.cell w made with same | replaced
  · exact same
  · exact absurd ⟨replaced.inside, replaced.unentered, replaced.unlocked⟩ outside

/-- **Unary operations** touch their footprint, one case for each. -/
theorem touched_unary (op : Unary) (v : Handle) (formed : s.heap.WellFormed) :
    s.Touched (Footprint s.heap (.unary op v)) (endState (op.perform v) s) := by
  cases op with
  | lock => exact touched_lock (.inl rfl) formed
  | locked => exact touched_lock (.inr rfl) formed
  | swap a b => exact touched_effect (S := (· = v)) (HeapM.swap v a b)
  | elementAt index => exact touched_value (HeapM.ask _)
  | member name => exact touched_value (HeapM.member v name)
  | declare => exact touched_value (HeapM.declareFrom v)
  | copy => exact touched_value (HeapM.copy v)
  | duplicate kind => exact touched_value (HeapM.duplicate kind v)
  | cloneWith kind => exact touched_value (HeapM.cloneWith kind v)
  | cast kind => exact touched_value (HeapM.cast kind v)
  | typeOf => exact touched_value (HeapM.typeOf v)
  | elements => exact touched_report id (do imagesOf (← HeapM.elements v))
  | keys => exact touched_report id (do imagesOf (← HeapM.keys v))
  | resolve index => exact touched_report (fun n => .number n) (HeapM.resolve v index)
  | length => exact touched_report (fun n => .number n) (HeapM.length v)
  | bounds | members | asBoolean | asInteger | asReal | asString =>
    exact touched_report _ (HeapM.ask _)
  | isLocked | kind | display | debug | predicates | inspect => exact touched_look _

/-- **Binary operations** touch theirs. -/
theorem touched_binary (op : Binary) (a b : Handle) (formed : s.heap.WellFormed) :
    s.Touched (Footprint s.heap (.binary op a b)) (endState (op.perform a b) s) := by
  cases op with
  | assign => exact touched_assign formed
  | add => exact touched_effect (S := (· = a)) (HeapM.add a b)
  | insertAt position => exact touched_effect (S := (· = a)) (HeapM.insertAt a b position)
  | element => exact touched_value (S := (· = a)) (HeapM.element a b)
  | removeKey =>
    rw [Binary.perform, endState_map]
    exact touched_onHeap (S := (· = a)) (HeapM.removeKey a b)
  | getKey =>
    rw [Binary.perform, endState_map]
    exact touched_onHeap (HeapM.getKey a b)
  | containsKey => exact touched_report _ (HeapM.getKey a b)
  | compare => exact touched_report _ (HeapM.ask (·.compare a b))
  | equals => exact touched_report _ (HeapM.ask (·.equals a b))
  | lessThan => exact touched_report _ (HeapM.ask (·.lessThan a b))
  | exactlyEqual | alike | reaches => exact touched_look _
  | same => exact ⟨s.heap, rfl, .refl _⟩

/-- **Footprints.** An operation changes nothing of a host but its heap, and no cell outside its
footprint. -/
theorem touched (op : Operation) (formed : s.heap.WellFormed) :
    s.Touched (op.Footprint s.heap) (endState op.perform s) := by
  cases op with
  | literal l => exact touched_value l.make
  | unary op v => exact touched_unary op v formed
  | binary op a b => exact touched_binary op a b formed
  | insertKey target key v =>
    exact touched_effect (S := (· = target)) (HeapM.insertKey target key v)
  | setElements target vs => exact touched_effect (S := (· = target)) (HeapM.setElements target vs)
  | array start vs policy => exact touched_value (HeapM.new (.array (.ofItems start vs policy)))
  | dictionary => exact touched_value (HeapM.new (.dictionary .empty))
  | record members => exact touched_value (HeapM.new (.record (.ofMembers members)))
  | function name params body => exact touched_value (HeapM.newFunction name params (.script body))

end Operation

namespace Host

/-- **Write footprints.** In every reachable state, whatever cells are shared, an operation changes
nothing of the host but its heap, and in the heap no cell that is there outside its footprint, also
when it fails. A lock changes nothing but locks, and afterwards just those values are locked that
were or that the value reaches. -/
theorem operation_footprint {s : Host} (reachable : s.Reachable) (op : Operation) :
    ∃ h, endState op.perform s = { s with heap := h } ∧ s.heap.size ≤ h.size ∧
      (∀ w, s.heap.Made w → ¬ op.Footprint s.heap w → h.cell w = s.heap.cell w) ∧
      ∀ v, op = .unary .lock v ∨ op = .unary .locked v → h.size = s.heap.size ∧
      (∀ w, h.data w = s.heap.data w) ∧
        ∀ w, h.isLocked w = true ↔ s.heap.isLocked w = true ∨ s.heap.Reaches v w := by
  have formed := reachable.wellFormed
  obtain ⟨h, ends, within⟩ := op.touched formed
  refine ⟨h, ends, within.size_le, within.cell, fun v isLock => ?_⟩
  -- the two operations differ in what they yield, not in the heap that they leave
  obtain ⟨h', run, locks⟩ := Heap.isLocked_lock formed v
  have locked : endState op.perform s = { s with heap := h' } := by
    have ended : endState (HeapM.lock v) s.heap = h' := by rw [endState, run]
    rcases isLock with rfl | rfl
    · exact (Operation.endState_lock (.inl rfl) v s).trans (by rw [ended])
    · exact (Operation.endState_lock (.inr rfl) v s).trans (by rw [ended])
  have same : h = h' := congrArg Host.heap (ends.symm.trans locked)
  exact same ▸ locks

/-- A pair holds one Null twice, and it is assigned a list that holds the pair itself: the Null
becomes a list, which is then assigned the pair and refuses it. Arrays stay as they are; and locking
the pair locks the Null, and not the list. -/
theorem operation_footprint_shared :
    let s := Session.after (.bare .default)
      [.hold "blank" (.literal .placeholder),
        .hold "pair" (.array 1 [.held "blank", .held "blank"] .refuse),
        .hold "list" (.array 1 [.array 1 [.literal (.integer 5)] .refuse, .held "pair"] .refuse)]
    let t := endState (Operation.binary .assign ⟨1⟩ ⟨4⟩).perform s
    let u := endState (Operation.unary .lock ⟨1⟩).perform s
    s.heap.kind ⟨0⟩ = .null ∧ t.heap.kind ⟨0⟩ = .array ∧
      (∀ w, s.heap.Made w → (s.heap.data w).isEntered = true → t.heap.cell w = s.heap.cell w) ∧
      u.heap.isLocked ⟨0⟩ = true ∧ u.heap.cell ⟨4⟩ = s.heap.cell ⟨4⟩ := by
  intro s t u
  have reachable : s.Reachable := reachable_after ⟨.default, true, [], none⟩ _
  obtain ⟨h, ends, -, others, -⟩ := operation_footprint reachable (.binary .assign ⟨1⟩ ⟨4⟩)
  obtain ⟨h', ends', -, -, locks⟩ := operation_footprint reachable (.unary .lock ⟨1⟩)
  have assigned : t.heap = h := congrArg Host.heap ends
  have locked : u.heap = h' := congrArg Host.heap ends'
  obtain ⟨-, data, isLocked⟩ := locks ⟨1⟩ (.inl rfl)
  refine ⟨by decide +kernel, by decide +kernel, fun w made entered => ?_, ?_, ?_⟩
  · rw [assigned]
    refine others w made fun footprint => ?_
    rw [footprint.2.1] at entered
    cases entered
  · rw [locked, isLocked]
    refine .inr (.step (p := ⟨0⟩) ?_ (.refl _))
    decide +kernel
  · rw [locked]
    refine Heap.cell_ext (data ⟨4⟩) ?_
    rw [← locked]
    decide +kernel

end Host

end ScriptHost
