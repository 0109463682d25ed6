import ScriptHost.Proofs.Heap.Walk
import ScriptHost.Proofs.Host.Run

/-!
# No value holds itself

In every state that a host can get into, no value is reached from its own parts, however values are
shared (`Host.reachable_grounded`). So the walks over all that a value holds could be defined by
recursion on its parts: each of them satisfies the equation of such a definition, in which nothing
stops it but the value's own end. The same holds of every heap that is passed through on the way, in
the middle of an operation.
-/

set_option autoImplicit false

namespace ScriptHost

namespace Heap

/-- No value holds itself, and the walks over values are recursions on their parts. -/
structure Grounded (h : Heap) : Prop where
  acyclic : ∀ v p, p ∈ h.parts v → ¬ h.Reaches p v
  wellFounded : WellFounded fun p v => p ∈ h.parts v
  image : ∀ v, h.image v = .node (h.isLocked v) ((h.data v).map h.image)
  display : ∀ v, h.display v = (Image.node (h.isLocked v) ((h.data v).map h.image)).text
  exactlyEqual : ∀ a b, h.exactlyEqual a b = h.equalOnce (· == ·) h.exactlyEqual a b
  copy : ∀ v, h.Made v → HeapM.copy v h = copyOnce HeapM.copy v h ∧
    ∃ c h', HeapM.copy v h = .ok c h'
  lock : ∀ v, HeapM.lock v h = lockOnce HeapM.lock v h ∧ ∃ h', HeapM.lock v h = .ok () h'
  step : ∀ up v amount,
    HeapM.step up v amount h = stepOnce up amount (fun p => HeapM.step up p amount) v h

/-- Parts have fewer cells below them, so going down ends. -/
theorem WellFormed.wellFounded {h : Heap} (formed : h.WellFormed) :
    WellFounded fun p v => p ∈ h.parts v :=
  Subrelation.wf (fun part => Finset.card_lt_card (formed.below_part part))
    (measure fun v => (h.below v).card).wf

theorem WellFormed.grounded {h : Heap} (formed : h.WellFormed) : h.Grounded where
  acyclic := formed.acyclic
  wellFounded := formed.wellFounded
  image := formed.image_eq
  display v := congrArg Image.text (formed.image_eq v)
  exactlyEqual := formed.exactlyEqual_eq
  copy v made := by
    obtain ⟨c, h', run, _⟩ := yields_copy formed.region.realm made
    exact ⟨formed.copy_eq made, c, h', run⟩
  lock v := by
    obtain ⟨h', run, _⟩ := run_lock h v
    exact ⟨lock_eq h v, h', run⟩
  step := formed.step_eq

end Heap

namespace Host

/-- **Acyclicity.** No value holds itself in a state that a host can get into, or in what further
changes make of it. -/
theorem reachable_grounded {s : Host} {h : Heap} (reachable : s.Reachable)
    (changes : Heap.Changes (fun _ => True) s.heap h) : h.Grounded :=
  (changes.region reachable.owning.region).formed.grounded

/-- Attempts to put an array into itself, directly and inside of another one, leave a heap without
cycles. -/
theorem reachable_grounded_knot :
    let s := Session.after (.bare .default)
      [.hold "inner" (.array 1 [] .refuse), .hold "outer" (.array 1 [.held "inner"] .refuse),
        .attempt (.binary .add (.held "inner") (.held "inner")),
        .attempt (.binary .add (.held "inner") (.held "outer"))]
    s.heap.parts ⟨1⟩ = [⟨0⟩] ∧ s.heap.Grounded := by
  intro s
  have reachable : s.Reachable := reachable_after ⟨.default, true, [], none⟩ _
  exact ⟨by decide +kernel, reachable_grounded reachable .refl⟩

end Host

end ScriptHost
