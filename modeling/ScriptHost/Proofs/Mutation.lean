import ScriptHost.Heap.Assign
import ScriptHost.Heap.Container
import ScriptHost.Proofs.Heap.Search
import ScriptHost.Proofs.Host.Run

/-!
# Mutations of a locked value

A `Mutation` is an operation that changes one given value, its target, or fails. Of a locked target
nothing changes, and neither does anything else: `Mutation.locked_refuses`. The fault is that of the
lock unless the mutation has something else wrong with it that is found out before the lock is
looked at. What that can be is listed by `Mutation.Objection`: values that cannot be extended at
all, an operand or a key of the wrong kind, and a value that contains the target. An assignment and
an exchange of elements look at the lock before anything else.
-/

set_option autoImplicit false

namespace ScriptHost

/-- An operation that changes a value, with all that it is given besides. -/
inductive Mutation where
  | assign (source : Handle)
  | add (value : Handle)
  | insertKey (key value : Handle)
  | insertAt (value : Handle) (position : Integer)
  | swap (a b : Integer)
  | setElements (items : List Handle)
  | removeKey (key : Handle)

namespace Mutation

/-- Changes the target. -/
def perform (target : Handle) : Mutation → HeapM Unit
  | .assign source => HeapM.assign target source
  | .add value => HeapM.add target value
  | .insertKey key value => HeapM.insertKey target key value
  | .insertAt value position => HeapM.insertAt target value position
  | .swap a b => HeapM.swap target a b
  | .setElements items => HeapM.setElements target items
  | .removeKey key => do
    let _ ← HeapM.removeKey target key

/-- The values that the target is to hold. -/
def stores : Mutation → List Handle
  | .add value | .insertKey _ value | .insertAt value _ => [value]
  | .setElements items => items
  | .assign _ | .swap _ _ | .removeKey _ => []

/-- The value that serves as a key. -/
def key? : Mutation → Option Handle
  | .insertKey key _ | .removeKey key => some key
  | _ => none

/-- What is wrong with a mutation, whether its target is locked or not. -/
inductive Objection (h : Heap) (target : Handle) : Mutation → Fault → Prop where
  | keyless {value : Handle} (held : h.kind target = .dictionary) :
    Objection h target (.add value) .keyRequired
  | inextensible {value : Handle} (held : h.kind target ∉ [.array, .executable, .dictionary]) :
    Objection h target (.add value) (.notExtensible (h.kind target))
  | notCallable {value : Handle} (held : h.kind target = .executable)
    (other : h.kind value ≠ .executable) :
    Objection h target (.add value) (.cannotCast (h.kind value).name Kind.executable.name)
  | notAKey {m : Mutation} {key : Handle} (given : m.key? = some key)
    (other : (h.kind key).isScalar = false) : Objection h target m (.notAKey (h.kind key))
  | cycle {m : Mutation} {value : Handle} (stored : value ∈ m.stores)
    (reach : h.Reaches value target)
    (added : ∀ w, m = .add w → h.kind target = .array) : Objection h target m .containsItself

/-- No objection is about a lock: locks are looked at apart from the rest. -/
theorem Objection.ne_valueLocked {h : Heap} {target : Handle} {m : Mutation} {f : Fault}
    (objection : m.Objection h target f) : f ≠ .valueLocked := by
  cases objection <;> simp

end Mutation

/-- Scalars serve as keys, and nothing else does. -/
theorem Data.asKey_cases {ρ : Type} (d : Data ρ) :
    (d.kind.isScalar = true ∧ ∃ k, d.asKey = .ok k) ∨
      (d.kind.isScalar = false ∧ d.asKey = .error (.notAKey d.kind)) := by
  cases d with
  | leaf l =>
    cases l with
    | boolean _ | integer _ _ | real _ _ | string _ => exact .inl ⟨rfl, _, rfl⟩
    | null | type _ | executable _ => exact .inr ⟨rfl, rfl⟩
  | array _ | dictionary _ | record _ => exact .inr ⟨rfl, rfl⟩

theorem Data.asExecutable?_eq_none_iff {ρ : Type} (d : Data ρ) :
    d.asExecutable? = none ↔ d.kind ≠ .executable := by
  cases d with
  | leaf l => cases l <;> simp [asExecutable?, kind, Leaf.kind]
  | array _ | dictionary _ | record _ => simp [asExecutable?, kind]

namespace Mutation

open HeapM

variable {h : Heap} {target : Handle} {m : Mutation}

/-- To a mutation other than an addition there are no objections but to its key and to what it
stores. -/
theorem unobjected (other : ∀ v, m ≠ .add v)
    (keys : ∀ key, m.key? = some key → (h.kind key).isScalar = true)
    (away : ∀ v ∈ m.stores, ¬ h.Reaches v target) (g : Fault) : ¬ m.Objection h target g := by
  intro objection
  cases objection with
  | keyless | inextensible | notCallable => exact other _ rfl
  | notAKey given unfit =>
    rw [keys _ given] at unfit
    cases unfit
  | cycle stored reach => exact away _ stored reach

/-- What becomes of a value that is to serve as a key. -/
theorem askKey_cases (h : Heap) (key : Handle) :
    ((h.kind key).isScalar = true ∧ ∃ k, HeapM.ask (fun h => (h.data key).asKey) h = .ok k h) ∨
    ((h.kind key).isScalar = false ∧
      HeapM.ask (fun h => (h.data key).asKey) h = .error (.notAKey (h.kind key)) h) := by
  obtain ⟨scalar, k, converts⟩ | ⟨other, fails⟩ := (h.data key).asKey_cases
  · exact .inl ⟨scalar, k, by simp only [HeapM.ask, converts]⟩
  · exact .inr ⟨other, by simp only [HeapM.ask, fails, Heap.kind]⟩

/-! ## Locked targets -/

/-- A mutation fails, changes nothing, and the fault is that of the lock unless there is an
objection. -/
def Refused (h : Heap) (target : Handle) (m : Mutation) : Prop :=
  ∃ f, m.perform target h = .error f h ∧
    ((f = .valueLocked ∧ ∀ g, ¬ m.Objection h target g) ∨ m.Objection h target f)

/-- An assignment looks at the lock before all else. -/
theorem refused_assign (locked : h.isLocked target = true) (source : Handle) :
    Refused h target (.assign source) := by
  obtain ⟨part, opened⟩ := exists_assignOnce h target source
  refine ⟨.valueLocked, ?_, .inl ⟨rfl, unobjected (by simp) (by simp [key?]) (by simp [stores])⟩⟩
  exact opened.trans (bind_of_error (writable_of_locked locked) _)

theorem refused_swap (locked : h.isLocked target = true) (a b : Integer) :
    Refused h target (.swap a b) := by
  refine ⟨.valueLocked, bind_of_error (writable_of_locked locked) _, .inl ⟨rfl, ?_⟩⟩
  exact unobjected (by simp) (by simp [key?]) (by simp [stores])

/-- An addition to an array has made its check for cycles by then. -/
theorem refused_addToArray {s : Sequence Handle} (locked : h.isLocked target = true)
    (held : h.data target = .array s) (value : Handle) : Refused h target (.add value) := by
  have first : HeapM.dataOf target h = .ok (.array s) h := by
    simp only [HeapM.dataOf, HeapM.look, held]
  have kind : h.kind target = .array := by rw [Heap.kind, held, Data.kind]
  by_cases reach : h.Reaches value target
  · refine ⟨.containsItself, ?_, .inr (.cycle (by simp [stores]) reach fun _ _ => kind)⟩
    exact (bind_of_ok first _).trans (bind_of_error (rejectCycle_of_reaches reach) _)
  · refine ⟨.valueLocked, ?_, .inl ⟨rfl, ?_⟩⟩
    · apply (bind_of_ok first _).trans
      apply (bind_of_ok (rejectCycle_of_not_reaches reach) _).trans
      exact bind_of_error (writable_of_locked locked) _
    · rintro g (other | other | ⟨other, -⟩ | given | ⟨stored, found, -⟩)
      · simp [kind] at other
      · simp [kind] at other
      · simp [kind] at other
      · cases given
      · obtain rfl : _ = value := by simpa [stores] using stored
        exact reach found

/-- An addition to an executable has looked at what is added by then. -/
theorem refused_addToExecutable {e : Executable} (locked : h.isLocked target = true)
    (held : h.data target = .leaf (.executable e)) (value : Handle) :
    Refused h target (.add value) := by
  have first : HeapM.dataOf target h = .ok (.leaf (.executable e)) h := by
    simp only [HeapM.dataOf, HeapM.look, held]
  have second : HeapM.dataOf value h = .ok (h.data value) h := rfl
  have kind : h.kind target = .executable := by rw [Heap.kind, held, Data.kind, Leaf.kind]
  cases given : (h.data value).asExecutable? with
  | none =>
    have other : h.kind value ≠ .executable := (Data.asExecutable?_eq_none_iff _).mp given
    refine ⟨_, ?_, .inr (.notCallable kind other)⟩
    apply (bind_of_ok first _).trans
    apply (bind_of_ok second _).trans
    simp only [given]
    rfl
  | some overloads =>
    refine ⟨.valueLocked, ?_, .inl ⟨rfl, ?_⟩⟩
    · apply (bind_of_ok first _).trans
      apply (bind_of_ok second _).trans
      simp only [given]
      exact bind_of_error (writable_of_locked locked) _
    · rintro g (other | other | ⟨-, other⟩ | key | ⟨-, -, added⟩)
      · simp [kind] at other
      · simp [kind] at other
      · simp [(Data.asExecutable?_eq_none_iff _).mpr other] at given
      · cases key
      · simp [kind] at added

/-- An addition goes by what the target is before it looks at anything else. -/
theorem refused_add (locked : h.isLocked target = true) (value : Handle) :
    Refused h target (.add value) := by
  cases held : h.data target with
  | array s => exact refused_addToArray locked held value
  | dictionary d =>
    refine ⟨.keyRequired, ?_, .inr (.keyless (by rw [Heap.kind, held, Data.kind]))⟩
    simp only [perform, HeapM.add, Bind.bind, EStateM.bind, HeapM.dataOf, HeapM.look, held]
    rfl
  | record r =>
    refine ⟨_, ?_, .inr (.inextensible (by simp [Heap.kind, held, Data.kind]))⟩
    simp only [perform, HeapM.add, Bind.bind, EStateM.bind, HeapM.dataOf, HeapM.look,
      Heap.kind, held]
    rfl
  | leaf l =>
    cases l with
    | executable e => exact refused_addToExecutable locked held value
    | _ =>
      refine ⟨_, ?_, .inr (.inextensible (by simp [Heap.kind, held, Data.kind, Leaf.kind]))⟩
      simp only [perform, HeapM.add, Bind.bind, EStateM.bind, HeapM.dataOf, HeapM.look,
        Heap.kind, held]
      rfl

/-! What comes before the lock in the other mutations is one or two of the same steps: a key, and a
search for cycles. -/

theorem refused_insertAt (locked : h.isLocked target = true) (value : Handle) (position : Integer) :
    Refused h target (.insertAt value position) := by
  by_cases reach : h.Reaches value target
  · refine ⟨.containsItself, ?_, .inr (.cycle (by simp [stores]) reach (by simp))⟩
    exact bind_of_error (rejectCycle_of_reaches reach) _
  · refine ⟨.valueLocked, ?_,
      .inl ⟨rfl, unobjected (by simp) (by simp [key?]) (by simpa [stores] using reach)⟩⟩
    apply (bind_of_ok (rejectCycle_of_not_reaches reach) _).trans
    exact bind_of_error (writable_of_locked locked) _

theorem refused_setElements (locked : h.isLocked target = true) (items : List Handle) :
    Refused h target (.setElements items) := by
  obtain ⟨away, run⟩ | ⟨⟨w, mem, reach⟩, run⟩ := rejectCycles_cases h target items
  · refine ⟨.valueLocked, ?_, .inl ⟨rfl, unobjected (by simp) (by simp [key?]) away⟩⟩
    apply (bind_of_ok run _).trans
    exact bind_of_error (writable_of_locked locked) _
  · exact ⟨.containsItself, bind_of_error run _, .inr (.cycle mem reach (by simp))⟩

theorem refused_insertKey (locked : h.isLocked target = true) (key value : Handle) :
    Refused h target (.insertKey key value) := by
  obtain ⟨scalar, k, first⟩ | ⟨other, first⟩ := askKey_cases h key
  · by_cases reach : h.Reaches value target
    · refine ⟨.containsItself, ?_, .inr (.cycle (by simp [stores]) reach (by simp))⟩
      exact (bind_of_ok first _).trans (bind_of_error (rejectCycle_of_reaches reach) _)
    · refine ⟨.valueLocked, ?_, .inl ⟨rfl, unobjected (by simp) ?_ (by simpa [stores] using reach)⟩⟩
      · apply (bind_of_ok first _).trans
        apply (bind_of_ok (rejectCycle_of_not_reaches reach) _).trans
        exact bind_of_error (writable_of_locked locked) _
      · rintro _ ⟨⟩
        exact scalar
  · exact ⟨_, bind_of_error first _, .inr (.notAKey rfl other)⟩

theorem refused_removeKey (locked : h.isLocked target = true) (key : Handle) :
    Refused h target (.removeKey key) := by
  obtain ⟨scalar, k, first⟩ | ⟨other, first⟩ := askKey_cases h key
  · refine ⟨.valueLocked, ?_, .inl ⟨rfl, unobjected (by simp) ?_ (by simp [stores])⟩⟩
    · apply bind_of_error
      apply (bind_of_ok first _).trans
      exact bind_of_error (writable_of_locked locked) _
    · rintro _ ⟨⟩
      exact scalar
  · exact ⟨_, bind_of_error (bind_of_error first _) _, .inr (.notAKey rfl other)⟩

/-- **A locked target refuses every mutation**, or there is another objection that comes first. -/
theorem refused (locked : h.isLocked target = true) (m : Mutation) : Refused h target m := by
  cases m with
  | assign source => exact refused_assign locked source
  | add value => exact refused_add locked value
  | insertKey key value => exact refused_insertKey locked key value
  | insertAt value position => exact refused_insertAt locked value position
  | swap a b => exact refused_swap locked a b
  | setElements items => exact refused_setElements locked items
  | removeKey key => exact refused_removeKey locked key

/-- **Locked values are not changed.** Every mutation of a locked value fails and leaves the heap as
it is. The fault is that of the lock if and only if there is no other objection to the mutation, and
otherwise it is one of the objections. -/
theorem locked_refuses (h : Heap) (target : Handle) (m : Mutation)
    (locked : h.isLocked target = true) :
    ∃ f, m.perform target h = .error f h ∧ (f = .valueLocked ↔ ∀ g, ¬ m.Objection h target g) ∧
      (f ≠ .valueLocked → m.Objection h target f) := by
  obtain ⟨f, run, ⟨rfl, none⟩ | objection⟩ := refused locked m
  · exact ⟨_, run, by simpa using none, by simp⟩
  · refine ⟨f, run, ?_, fun _ => objection⟩
    simpa [objection.ne_valueLocked] using ⟨f, objection⟩

/-- A locked list of one number: another number cannot be put into it, because of the lock, and
neither can the list itself, because it contains itself. -/
theorem locked_refuses_list :
    let s := Session.after (.bare .default)
      [.hold "list" (.unary .locked (.array 1 [.literal (.integer 5)] .refuse)),
        .hold "six" (.literal (.integer 6))]
    s.heap.isLocked ⟨1⟩ = true ∧
      (Mutation.insertAt ⟨2⟩ 1).perform ⟨1⟩ s.heap = .error .valueLocked s.heap ∧
      ∃ f, (Mutation.insertAt ⟨1⟩ 1).perform ⟨1⟩ s.heap = .error f s.heap ∧ f ≠ .valueLocked := by
  intro s
  have locked : s.heap.isLocked ⟨1⟩ = true := by decide +kernel
  obtain ⟨f, run, names, -⟩ := locked_refuses s.heap ⟨1⟩ (.insertAt ⟨2⟩ 1) locked
  obtain ⟨g, again, itself, -⟩ := locked_refuses s.heap ⟨1⟩ (.insertAt ⟨1⟩ 1) locked
  have away : ¬ s.heap.Reaches ⟨2⟩ ⟨1⟩ := by
    rw [← Heap.reaches_eq_true_iff]
    decide +kernel
  obtain rfl := names.mpr (unobjected (by simp) (by simp [key?]) (by simpa [stores] using away))
  have inside : ⟨1⟩ ∈ (Mutation.insertAt ⟨1⟩ 1).stores := by simp [stores]
  exact ⟨locked, run, g, again,
    fun lock => itself.mp lock .containsItself (.cycle inside (.refl _) (by simp))⟩

/-- **The lock is not what is looked at first.** Additions to a locked number and to a locked
dictionary, and an array as the key of an entry of that dictionary, are refused for other reasons
than the lock. -/
theorem locked_outranked :
    let s := Session.after (.bare .default)
      [.hold "number" (.unary .locked (.literal (.integer 5))),
        .hold "entries" (.unary .locked (.dictionary [])), .hold "list" (.array 1 [] .refuse)]
    (s.heap.isLocked ⟨0⟩ = true ∧ s.heap.isLocked ⟨1⟩ = true) ∧
      (Mutation.add ⟨2⟩).perform ⟨0⟩ s.heap = .error (.notExtensible .integer) s.heap ∧
      (Mutation.add ⟨2⟩).perform ⟨1⟩ s.heap = .error .keyRequired s.heap ∧
      (Mutation.insertKey ⟨2⟩ ⟨0⟩).perform ⟨1⟩ s.heap = .error (.notAKey .array) s.heap := by
  intro s
  exact ⟨by decide +kernel, rfl, rfl, rfl⟩

end Mutation

end ScriptHost
