import Mathlib.Data.List.Forall2
import ScriptHost.Host.State

/-!
# Courses: what a step makes of a state

A step ends with a result or with a failure, and leaves a state either way. A `Course` says two
things about states: what `holds` of each of them, and how one `goes` over into another.
`Course.Leads m s Q` says that the step `m`, started in `s`, keeps to the course whether it fails or
not, and that a result it yields has `Q`.

The rules below follow the shape of steps, so that a step built from others keeps to a course when
its parts do. What `Q` says about a result has to outlast the rest of the step; the second premise
of `Leads.bind` has the transition at hand for that.
-/

set_option autoImplicit false

namespace ScriptHost

/-- What holds of states, and how states go over into one another. -/
structure Course (σ : Type) where
  holds : σ → Prop
  goes : σ → σ → Prop
  refl : ∀ s, goes s s
  trans : ∀ {s t u}, goes s t → goes t u → goes s u

namespace Course

variable {σ ε α β : Type} {C : Course σ} {s t : σ} {Q : α → σ → Prop} {R : β → σ → Prop}

/-- The step `m` keeps to the course from `s` on, and its result, if it has one, satisfies `Q`. -/
def Leads (C : Course σ) (m : EStateM ε σ α) (s : σ) (Q : α → σ → Prop) : Prop :=
  match m s with
  | .ok a t => C.holds t ∧ C.goes s t ∧ Q a t
  | .error _ t => C.holds t ∧ C.goes s t

/-- The course that allows everything. -/
def anywhere (σ : Type) : Course σ where
  holds _ := True
  goes _ _ := True
  refl _ := trivial
  trans _ _ := trivial

namespace Leads

/-- From a run that is known to succeed. -/
theorem of_ok {m : EStateM ε σ α} {a : α} (run : m s = .ok a t) (held : C.holds t)
    (gone : C.goes s t) (result : Q a t) : C.Leads m s Q := by
  simp only [Leads, run]
  exact ⟨held, gone, result⟩

/-- From a run that is known to fail: no result is asked for. -/
theorem of_error {m : EStateM ε σ α} {e : ε} (run : m s = .error e t) (held : C.holds t)
    (gone : C.goes s t) : C.Leads m s Q := by
  simp only [Leads, run]
  exact ⟨held, gone⟩

/-- What is known when the step succeeds. -/
theorem ok {m : EStateM ε σ α} {a : α} (leads : C.Leads m s Q) (run : m s = .ok a t) :
    C.holds t ∧ C.goes s t ∧ Q a t := by
  simpa only [Leads, run] using leads

/-- What is known when it fails. -/
theorem error {m : EStateM ε σ α} {e : ε} (leads : C.Leads m s Q) (run : m s = .error e t) :
    C.holds t ∧ C.goes s t := by
  simpa only [Leads, run] using leads

/-- What is known either way. -/
theorem atEnd {m : EStateM ε σ α} (leads : C.Leads m s Q) :
    C.holds (endState m s) ∧ C.goes s (endState m s) := by
  cases run : m s with
  | ok a t =>
    obtain ⟨held, gone, _⟩ := leads.ok run
    simpa only [endState, run] using ⟨held, gone⟩
  | error e t => simpa only [endState, run] using leads.error run

/-- Every step keeps to the course that asks for nothing. -/
theorem anywhere (m : EStateM ε σ α) (s : σ) : (Course.anywhere σ).Leads m s fun _ _ => True := by
  cases run : m s with
  | ok a t => exact of_ok run trivial trivial trivial
  | error e t => exact of_error run trivial trivial

/-! ## Rules -/

theorem pure {a : α} (held : C.holds s) (result : Q a s) : C.Leads (pure a : EStateM ε σ α) s Q :=
  of_ok rfl held (C.refl s) result

theorem throw {e : ε} (held : C.holds s) : C.Leads (throw e : EStateM ε σ α) s Q :=
  of_error rfl held (C.refl s)

/-- A step that goes over into another one, which it ends as. -/
theorem continued {whole m : EStateM ε σ α} (rest : C.Leads m t Q) (run : whole s = m t)
    (gone : C.goes s t) : C.Leads whole s Q := by
  cases ends : m t with
  | ok a u =>
    obtain ⟨held, further, result⟩ := rest.ok ends
    exact of_ok (run.trans ends) held (C.trans gone further) result
  | error e u =>
    obtain ⟨held, further⟩ := rest.error ends
    exact of_error (run.trans ends) held (C.trans gone further)

/-- **Sequence.** The second step starts in the state that the first one leaves. -/
theorem bind {m : EStateM ε σ α} {f : α → EStateM ε σ β} (first : C.Leads m s Q)
    (next : ∀ a t, C.holds t → C.goes s t → Q a t → C.Leads (f a) t R) : C.Leads (m >>= f) s R := by
  cases run : m s with
  | ok a t =>
    obtain ⟨held, gone, result⟩ := first.ok run
    have whole : (m >>= f) s = f a t := by simp only [Bind.bind, EStateM.bind, run]
    exact (next a t held gone result).continued whole gone
  | error e t =>
    obtain ⟨held, gone⟩ := first.error run
    have whole : (m >>= f) s = .error e t := by simp only [Bind.bind, EStateM.bind, run]
    exact of_error whole held gone

/-- What is said of a result may use that the course holds at the end. -/
theorem weaken {m : EStateM ε σ α} {Q' : α → σ → Prop} (leads : C.Leads m s Q)
    (weaker : ∀ a t, C.holds t → C.goes s t → Q a t → Q' a t) : C.Leads m s Q' := by
  cases run : m s with
  | ok a t =>
    obtain ⟨held, gone, result⟩ := leads.ok run
    exact of_ok run held gone (weaker a t held gone result)
  | error e t =>
    obtain ⟨held, gone⟩ := leads.error run
    exact of_error run held gone

/-- A step that keeps to a narrower course. -/
theorem narrow {D : Course σ} {m : EStateM ε σ α} (leads : D.Leads m s Q)
    (wider : ∀ t, D.holds t → D.goes s t → C.holds t ∧ C.goes s t) :
    C.Leads m s fun a t => Q a t ∧ D.holds t := by
  cases run : m s with
  | ok a t =>
    obtain ⟨held, gone, result⟩ := leads.ok run
    exact of_ok run (wider t held gone).1 (wider t held gone).2 ⟨result, held⟩
  | error e t =>
    obtain ⟨held, gone⟩ := leads.error run
    exact of_error run (wider t held gone).1 (wider t held gone).2

/-- A step for every element of a list, in order. -/
theorem forM {l : List α} {f : α → EStateM ε σ PUnit} (held : C.holds s)
    (each : ∀ a ∈ l, ∀ t, C.holds t → C.goes s t → C.Leads (f a) t fun _ _ => True) :
    C.Leads (l.forM f) s fun _ _ => True := by
  induction l generalizing s with
  | nil => exact pure held trivial
  | cons a l ih =>
    change C.Leads (f a >>= fun _ => l.forM f) s _
    refine (each a (by simp) s held (C.refl s)).bind fun _ t held gone _ => ih held ?_
    intro b mem u held further
    exact each b (by simp [mem]) u held (C.trans gone further)

/-- A step for every element of a list, with the results in order. What is said of a result has to
outlast the steps after it. -/
theorem mapM {l : List α} {f : α → EStateM ε σ β} (lasting : ∀ b t u, R b t → C.goes t u → R b u)
    (held : C.holds s) (each : ∀ a ∈ l, ∀ t, C.holds t → C.goes s t → C.Leads (f a) t R) :
    C.Leads (l.mapM f) s fun bs t => ∀ b ∈ bs, R b t := by
  induction l generalizing s with
  | nil => exact pure held (by simp)
  | cons a l ih =>
    rw [List.mapM_cons]
    refine (each a (by simp) s held (C.refl s)).bind fun b t held gone result => ?_
    have rest := ih held fun c mem u held further =>
      each c (by simp [mem]) u held (C.trans gone further)
    refine rest.bind fun bs u held further results => pure held ?_
    intro c mem
    obtain rfl | mem := List.mem_cons.mp mem
    · exact lasting _ _ _ result further
    · exact results c mem

end Leads

/-! ## Steps that keep to a course from wherever it holds -/

/-- The step keeps to the course from every state in which the course holds. That is a property of
the step alone, and it is found for a step by the steps that it is made of. -/
class KeptBy (C : Course σ) (m : EStateM ε σ α) : Prop where
  leads : ∀ s, C.holds s → C.Leads m s fun _ _ => True

namespace KeptBy

instance pure (a : α) : C.KeptBy (pure a : EStateM ε σ α) := ⟨fun _ held => .pure held trivial⟩

instance throw (e : ε) : C.KeptBy (throw e : EStateM ε σ α) := ⟨fun _ held => .throw held⟩

instance bind (m : EStateM ε σ α) (f : α → EStateM ε σ β) [first : C.KeptBy m]
    [next : ∀ a, C.KeptBy (f a)] : C.KeptBy (m >>= f) :=
  ⟨fun s held => (first.leads s held).bind fun a t held _ _ => (next a).leads t held⟩

instance ite (c : Prop) [Decidable c] (m n : EStateM ε σ α) [yes : C.KeptBy m] [no : C.KeptBy n] :
    C.KeptBy (if c then m else n) := by
  split
  · exact yes
  · exact no

instance forM (l : List α) (f : α → EStateM ε σ PUnit) [each : ∀ a, C.KeptBy (f a)] :
    C.KeptBy (l.forM f) :=
  ⟨fun _ held => Leads.forM held fun a _ t held _ => (each a).leads t held⟩

instance mapM (l : List α) (f : α → EStateM ε σ β) [each : ∀ a, C.KeptBy (f a)] :
    C.KeptBy (l.mapM f) :=
  ⟨fun _ held => (Leads.mapM (R := fun _ _ => True) (fun _ _ _ _ _ => trivial) held
    fun a _ t held _ => (each a).leads t held).weaken fun _ _ _ _ _ => trivial⟩

end KeptBy

/-! ## Steps that do not fail -/

/-- The step `m` ends with a result from `s` on; it keeps to the course, and its result satisfies
`Q`. -/
def Yields (C : Course σ) (m : EStateM ε σ α) (s : σ) (Q : α → σ → Prop) : Prop :=
  ∃ a t, m s = .ok a t ∧ C.holds t ∧ C.goes s t ∧ Q a t

namespace Yields

/-- A step that does not fail keeps to its course. -/
theorem leads {m : EStateM ε σ α} (yields : C.Yields m s Q) : C.Leads m s Q := by
  obtain ⟨a, t, run, held, gone, result⟩ := yields
  exact .of_ok run held gone result

theorem pure {a : α} (held : C.holds s) (result : Q a s) : C.Yields (pure a : EStateM ε σ α) s Q :=
  ⟨a, s, rfl, held, C.refl s, result⟩

theorem bind {m : EStateM ε σ α} {f : α → EStateM ε σ β} (first : C.Yields m s Q)
    (next : ∀ a t, C.holds t → C.goes s t → Q a t → C.Yields (f a) t R) :
    C.Yields (m >>= f) s R := by
  obtain ⟨a, t, run, held, gone, result⟩ := first
  obtain ⟨b, u, rest, held, further, result⟩ := next a t held gone result
  refine ⟨b, u, ?_, held, C.trans gone further, result⟩
  simp only [Bind.bind, EStateM.bind, run, rest]

theorem weaken {m : EStateM ε σ α} {Q' : α → σ → Prop} (yields : C.Yields m s Q)
    (weaker : ∀ a t, C.holds t → C.goes s t → Q a t → Q' a t) : C.Yields m s Q' := by
  obtain ⟨a, t, run, held, gone, result⟩ := yields
  exact ⟨a, t, run, held, gone, weaker a t held gone result⟩

/-- A step for every element of a list, with the results matched to the elements. -/
theorem mapM {M : α → β → σ → Prop} {l : List α} {f : α → EStateM ε σ β}
    (lasting : ∀ a b t u, C.holds t → M a b t → C.goes t u → M a b u) (held : C.holds s)
    (each : ∀ a ∈ l, ∀ t, C.holds t → C.goes s t → C.Yields (f a) t (M a)) :
    C.Yields (l.mapM f) s fun bs t => List.Forall₂ (fun a b => M a b t) l bs := by
  induction l generalizing s with
  | nil => exact pure held .nil
  | cons a l ih =>
    rw [List.mapM_cons]
    refine (each a (by simp) s held (C.refl s)).bind fun b t held gone result => ?_
    have rest := ih held fun c mem u held further =>
      each c (by simp [mem]) u held (C.trans gone further)
    refine rest.bind fun bs u heldAfter further results => pure heldAfter (.cons ?_ results)
    exact lasting _ _ _ _ held result further

end Yields

/-! ## Steps that agree -/

/-- Steps that agree for every element of a list, in whatever states the steps before it leave. -/
theorem forM_congr {l : List α} {f g : α → EStateM ε σ PUnit} (held : C.holds s)
    (each : ∀ a ∈ l, ∀ t, C.holds t → C.goes s t → f a t = g a t ∧
      C.Leads (g a) t fun _ _ => True) :
    l.forM f s = l.forM g s := by
  induction l generalizing s with
  | nil => rfl
  | cons a l ih =>
    obtain ⟨same, leads⟩ := each a (by simp) s held (C.refl s)
    change (f a >>= fun _ => l.forM f) s = (g a >>= fun _ => l.forM g) s
    simp only [Bind.bind, EStateM.bind, same]
    cases run : g a s with
    | ok u t =>
      obtain ⟨held, gone, _⟩ := leads.ok run
      exact ih held fun b mem u held further => each b (by simp [mem]) u held (C.trans gone further)
    | error e t => rfl

/-- Two steps over a list are the same if they are at each element, wherever the course can lead. -/
theorem mapM_congr {l : List α} {f g : α → EStateM ε σ β} (held : C.holds s)
    (each : ∀ a ∈ l, ∀ t, C.holds t → C.goes s t → f a t = g a t ∧
      C.Leads (g a) t fun _ _ => True) :
    l.mapM f s = l.mapM g s := by
  induction l generalizing s with
  | nil => rfl
  | cons a l ih =>
    obtain ⟨same, leads⟩ := each a (by simp) s held (C.refl s)
    rw [List.mapM_cons, List.mapM_cons]
    simp only [Bind.bind, EStateM.bind, same]
    cases run : g a s with
    | ok u t =>
      obtain ⟨held, gone, _⟩ := leads.ok run
      have rest := ih held fun b mem u held further =>
        each b (by simp [mem]) u held (C.trans gone further)
      simp only [rest]
    | error e t => rfl

end Course

/-! ## Steps over the heap -/

namespace Course.Leads

variable {C : Course Heap} {h : Heap} {α : Type} {Q : α → Heap → Prop}

theorem look {f : Heap → α} (held : C.holds h) (result : Q (f h) h) : C.Leads (HeapM.look f) h Q :=
  of_ok rfl held (C.refl h) result

theorem ask {f : Heap → Except Fault α} (held : C.holds h) (result : ∀ a, f h = .ok a → Q a h) :
    C.Leads (HeapM.ask f) h Q := by
  cases run : f h with
  | ok a => exact of_ok (by simp only [HeapM.ask, run]) held (C.refl h) (result a run)
  | error e =>
    have failed : HeapM.ask f h = .error e h := by simp only [HeapM.ask, run]
    exact of_error failed held (C.refl h)

theorem of {x : Except Fault α} (held : C.holds h) (result : ∀ a, x = .ok a → Q a h) :
    C.Leads (HeapM.of x) h Q :=
  ask held result

/-- What comes after a look starts in the same heap. -/
theorem lookBind {β : Type} {f : Heap → α} {k : α → HeapM β} {R : β → Heap → Prop}
    (next : C.Leads (k (f h)) h R) : C.Leads (HeapM.look f >>= k) h R :=
  next

/-- What comes after a question starts in the same heap, with the answer. -/
theorem askBind {β : Type} {f : Heap → Except Fault α} {k : α → HeapM β} {R : β → Heap → Prop}
    (held : C.holds h) (next : ∀ a, f h = .ok a → C.Leads (k a) h R) :
    C.Leads (HeapM.ask f >>= k) h R := by
  refine (ask (Q := fun a h' => h' = h ∧ f h = .ok a) held fun a run => ⟨rfl, run⟩).bind ?_
  rintro a t _ _ ⟨rfl, run⟩
  exact next a run

/-- A computation that is checked first changes nothing, so the rest goes on where it was. -/
theorem ofBind {β : Type} {x : Except Fault α} {k : α → HeapM β} {R : β → Heap → Prop}
    (held : C.holds h) (next : ∀ a, x = .ok a → C.Leads (k a) h R) :
    C.Leads (HeapM.of x >>= k) h R :=
  askBind held next

/-- What comes after a value has been found to be unlocked starts in the same heap, with its
contents. -/
theorem writableBind {β : Type} {v : Handle} {k : Data Handle → HeapM β} {R : β → Heap → Prop}
    (held : C.holds h) (next : h.isLocked v = false → C.Leads (k (h.data v)) h R) :
    C.Leads (HeapM.writable v >>= k) h R := by
  refine askBind held fun d run => ?_
  split at run
  · cases run
  next unlocked =>
    cases run
    exact next (by simpa using unlocked)

/-- The contents of a value are replaced unless it is locked. -/
theorem write {v : Handle} {d : Data Handle} {Q : Unit → Heap → Prop} (held : C.holds h)
    (set : h.isLocked v = false → C.holds (h.setCell v ⟨d, false⟩) ∧
      C.goes h (h.setCell v ⟨d, false⟩) ∧ Q () (h.setCell v ⟨d, false⟩)) :
    C.Leads (HeapM.write v d) h Q := by
  cases locked : h.isLocked v with
  | true =>
    have run : HeapM.write v d h = .error .valueLocked h := by
      simp only [HeapM.write, locked, if_true]
    exact of_error run held (C.refl h)
  | false =>
    have run : HeapM.write v d h = .ok () (h.setCell v ⟨d, false⟩) := by simp [HeapM.write, locked]
    obtain ⟨held, gone, result⟩ := set locked
    exact of_ok run held gone result

end Course.Leads

namespace Course.KeptBy

variable {C : Course Heap} {α : Type}

instance look (f : Heap → α) : C.KeptBy (HeapM.look f) := ⟨fun _ held => Leads.look held trivial⟩

instance ask (f : Heap → Except Fault α) : C.KeptBy (HeapM.ask f) :=
  ⟨fun _ held => Leads.ask held fun _ _ => trivial⟩

instance of (x : Except Fault α) : C.KeptBy (HeapM.of x) := ask _

end Course.KeptBy

/-! ## Steps of a host -/

namespace Course.Leads

variable {C : Course Host} {s : Host} {α : Type} {Q : α → Host → Prop}

theorem hostLook {f : Host → α} (held : C.holds s) (result : Q (f s) s) :
    C.Leads (HostM.look f) s Q :=
  of_ok rfl held (C.refl s) result

theorem hostOf {x : Except Fault α} (held : C.holds s) (result : ∀ a, x = .ok a → Q a s) :
    C.Leads (HostM.of x) s Q := by
  cases x with
  | ok a => exact of_ok rfl held (C.refl s) (result a rfl)
  | error e => exact of_error rfl held (C.refl s)

theorem hostLookBind {β : Type} {f : Host → α} {k : α → HostM β} {R : β → Host → Prop}
    (next : C.Leads (k (f s)) s R) : C.Leads (HostM.look f >>= k) s R :=
  next

theorem hostOfBind {β : Type} {x : Except Fault α} {k : α → HostM β} {R : β → Host → Prop}
    (held : C.holds s) (next : ∀ a, x = .ok a → C.Leads (k a) s R) :
    C.Leads (HostM.of x >>= k) s R := by
  refine (hostOf (Q := fun a t => t = s ∧ x = .ok a) held fun a run => ⟨rfl, run⟩).bind ?_
  rintro a t _ _ ⟨rfl, run⟩
  exact next a run

/-- What comes after a look at the heap of a host starts in the same state. -/
theorem hostHeapLookBind {β : Type} {f : Heap → α} {k : α → HostM β} {R : β → Host → Prop}
    (next : C.Leads (k (f s.heap)) s R) : C.Leads (HostM.onHeap (HeapM.look f) >>= k) s R :=
  next

/-- A step over the heap that keeps to a course of heaps. -/
theorem onHeap {D : Course Heap} {m : HeapM α} {Q : α → Heap → Prop} (step : D.Leads m s.heap Q)
    (after : ∀ h, D.holds h → D.goes s.heap h → C.holds { s with heap := h } ∧
      C.goes s { s with heap := h }) : C.Leads (HostM.onHeap m) s fun a t => Q a t.heap := by
  cases ends : m s.heap with
  | ok a h =>
    obtain ⟨held, gone, result⟩ := step.ok ends
    have run : HostM.onHeap m s = .ok a { s with heap := h } := by simp only [HostM.onHeap, ends]
    exact of_ok run (after h held gone).1 (after h held gone).2 result
  | error f h =>
    obtain ⟨held, gone⟩ := step.error ends
    have run : HostM.onHeap m s = .error (.fault f) { s with heap := h } := by
      simp only [HostM.onHeap, ends]
    exact of_error run (after h held gone).1 (after h held gone).2

/-- Any step over the heap, for a course that takes no notice of it. -/
theorem onAnyHeap (m : HeapM α)
    (after : ∀ h, C.holds { s with heap := h } ∧ C.goes s { s with heap := h }) :
    C.Leads (HostM.onHeap m) s fun _ _ => True :=
  onHeap (Leads.anywhere m s.heap) fun h _ _ => after h

theorem fail {f : Fault} (held : C.holds s) : C.Leads (HostM.fail f) s Q := throw held

/-- A step that is started in `t` and followed by a change whatever its end, as what a whole step
does from `s` on. -/
theorem always {whole m : HostM α} {after : Host → Host} {t : Host} {R : α → Host → Prop}
    (run : whole s = HostM.always m after t) (step : C.Leads m t Q)
    (close : ∀ u, C.holds u → C.goes t u →
      C.holds (after u) ∧ C.goes s (after u) ∧ ∀ a, Q a u → R a (after u)) : C.Leads whole s R := by
  cases ends : m t with
  | ok a u =>
    obtain ⟨held, gone, result⟩ := step.ok ends
    obtain ⟨held, gone, keeps⟩ := close u held gone
    have ran : whole s = .ok a (after u) := by simp only [run, HostM.always, ends]
    exact of_ok ran held gone (keeps a result)
  | error e u =>
    obtain ⟨held, gone⟩ := step.error ends
    obtain ⟨held, gone, _⟩ := close u held gone
    have ran : whole s = .error e (after u) := by simp only [run, HostM.always, ends]
    exact of_error ran held gone

theorem change {f : Host → Host} {Q : Unit → Host → Prop} (held : C.holds (f s))
    (gone : C.goes s (f s)) (result : Q () (f s)) : C.Leads (HostM.change f) s Q :=
  of_ok rfl held gone result

end Course.Leads

end ScriptHost
