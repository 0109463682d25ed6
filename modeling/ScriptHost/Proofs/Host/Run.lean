import ScriptHost.Proofs.Host.Owning
import ScriptHost.Session

/-!
# Runs of a host

`Host.Step P` is one thing that can happen to a host while only the cells `P` are handed to it: an
expression is evaluated, whatever its end; a value is put into a register; a call is entered or
left, so that a run can also stop inside of calls. `Host.Run P` is any number of steps. The states
that a host can get into are those of the runs from the start of a session (`Host.Reachable`); among
them are all states of the session itself (`reachable_after`).

A run keeps to what is owned, so what holds of every change to owned cells holds of runs
(`Run.owning`).
-/

set_option autoImplicit false

namespace ScriptHost

open HostM Course

namespace Host

/-- What can happen to a host that is handed values among `P` only. -/
inductive Step (P : Handle → Prop) (s : Host) : Host → Prop where
  | evaluate (e : Expr) (levels : Nat) : Step P s (endState (e.eval (.free levels)) s)
  | hold (register : String) (v : Handle) (owned : s.heap.Owned P v) :
    Step P s { s with registers := Named.put register v s.registers }
  | enter (c : Callable) (args : List Handle) (owned : ∀ v ∈ args, s.heap.Owned P v) :
    Step P s (endState (bindParams c args) s)
  | leave (depth : Nat) : Step P s (s.unwind depth)
  | count (calls : Nat) : Step P s { s with callDepth := calls }
  | log (reports : List Report) : Step P s { s with log := reports }

/-- Any number of steps. -/
abbrev Run (P : Handle → Prop) : Host → Host → Prop := Relation.ReflTransGen (Step P)

/-- A state that a host can get into after the start of a session. -/
def Reachable (s : Host) : Prop := ∃ session : Session, Run (fun _ => True) session.host s

section Runs

variable {P : Handle → Prop} {s t : Host}

/-- **One step** keeps to what is owned. -/
theorem Step.owning (step : Step P s t) (held : Owning False P s) :
    Owning False P t ∧ Heap.Changes P s.heap t.heap := by
  cases step with
  | evaluate e levels => exact ((owning_lawful stops_nothing P).leads_watched e levels held).atEnd
  | hold register v owned => exact (leads_hold register held owned).atEnd
  | enter c args owned => exact (leads_bindParams held owned).atEnd
  | leave depth => exact ⟨held.unwind depth, .refl⟩
  | count calls => exact ⟨⟨held.realm, held.within.congr rfl rfl rfl rfl rfl⟩, .refl⟩
  | log reports => exact owning_aside s s.stream reports held

/-- **A run** keeps to what is owned. -/
theorem Run.owning (run : Run P s t) (held : Owning False P s) :
    Owning False P t ∧ Heap.Changes P s.heap t.heap := by
  induction run with
  | refl => exact ⟨held, .refl⟩
  | tail _ step ih =>
    obtain ⟨after, changes⟩ := step.owning ih.1
    exact ⟨after, ih.2.trans changes⟩

end Runs

/-! ## Sessions -/

/-- A step of a session clears the log and evaluates an expression. -/
theorem step_eq (s : Host) (e : Expr) :
    (Session.step none s e).2 =
      endState (e.eval (.free (s.settings.stackLimit + spareLevels))) { s with log := [] } := by
  unfold Session.step reported Expr.evalTop
  cases ends : e.eval (.free (s.settings.stackLimit + spareLevels)) { s with log := [] } <;>
    simp only [Bind.bind, EStateM.bind, look, ends, endState]

/-- A step of a session is a run. -/
theorem run_step {P : Handle → Prop} (s : Host) (e : Expr) : Run P s (Session.step none s e).2 := by
  rw [step_eq]
  exact (Relation.ReflTransGen.single (.log [])).tail (.evaluate e _)

/-- So is a session. -/
theorem run_after {P : Handle → Prop} (s : Host) (es : List Expr) :
    Run P s (Session.after s es) := by
  induction es generalizing s with
  | nil => exact .refl
  | cons e es ih => exact (run_step s e).trans (ih _)

/-- The states of a session are reachable. -/
theorem reachable_after (session : Session) (es : List Expr) :
    (Session.after session.host es).Reachable :=
  ⟨session, run_after _ es⟩

/-! ## The start of a host -/

/-- A host without a library owns what is in it, which is nothing. -/
theorem bare_owning {typed : Prop} (settings : Settings) :
    (bare settings).Owning typed fun _ => True where
  realm := { Heap.empty_wellFormed.region with homogeneous := fun _ => Heap.empty_homogeneous }
  within := by
    refine ⟨fun i => ?_, by simp [bare, Stack.empty], by simp [bare], by simp [bare],
      by simp [bare]⟩
    have none : (bare settings).base i = .empty := by cases i <;> simp [base, bare]
    rw [none]
    exact SymbolTable.within_empty

end Host

namespace Library

variable {typed : Prop} {P : Handle → Prop} {s : Host}

/-- Whether a leaf is an integer with bounds. -/
def isBounded : Leaf → Bool
  | .integer _ (some _) => true
  | _ => false

/-- No constant is an integer out of bounds. -/
theorem fits_constants : ∀ p ∈ constants, (Data.leaf p.2 : Data Handle).Fits := by
  have plain : ∀ p ∈ constants, isBounded p.2 = false := by decide
  intro p mem i b bounded
  have same : p.2 = .integer i (some b) := by injection bounded
  have unbounded := plain p mem
  rw [same] at unbounded
  cases unbounded

/-- A value that is owned may be bound. -/
theorem leads_bindPlain {name : String} {v : Handle} (held : s.Owning typed P)
    (owned : s.heap.Owned P v) :
    (Host.owning typed P).course.Leads (bindPlain name v) s fun _ _ => True :=
  Host.leads_bindPlace (.plainSymbol .host (marked name)) held owned

theorem sound_alloc {l : Leaf} (fits : (Data.leaf l : Data Handle).Fits) :
    (HeapM.alloc ⟨.leaf l, true⟩).Sound [] fun v => [v] :=
  fun _ _ _ region _ => (Heap.leads_allocLeaf region fits).weaken fun _ _ _ _ made => by
    simpa using made.1

/-- A constant is a new value. -/
theorem leads_installConstant {name : String} {l : Leaf} (held : s.Owning typed P)
    (fits : (Data.leaf l : Data Handle).Fits) :
    (Host.owning typed P).course.Leads (installConstant name l) s fun _ _ => True :=
  (Host.leads_onHeap (sound_alloc fits) held (by simp)).bind fun v _ held _ made =>
    leads_bindPlain held (made v (by simp))

/-- A routine is a new value. -/
theorem leads_installRoutine {r : Routine} (held : s.Owning typed P) :
    (Host.owning typed P).course.Leads (installRoutine r) s fun _ _ => True := by
  unfold installRoutine
  obtain ⟨name, params⟩ := r.signature
  refine (Host.leads_onHeap Heap.sound_newFunction held (by simp)).bind fun v t held _ made => ?_
  have owned := made v (by simp)
  refine (Host.leads_onHeap Heap.sound_lock held (by simpa using owned)).bind
    fun _ u held gone _ => ?_
  exact Host.leads_bindPlace (.symbol .host (marked name)) held (owned.changes gone)

/-- A second name binds a value that is found. -/
theorem leads_installAlias {plain name : String} (held : s.Owning typed P) :
    (Host.owning typed P).course.Leads (installAlias plain name) s fun _ _ => True :=
  Leads.hostLookBind (Leads.hostOfBind held fun _ run =>
    leads_bindPlain held ((held.within.scopeOf held.within.frames).lookupOverload run))

/-- The version is a new value. -/
theorem leads_installVersion (held : s.Owning typed P) :
    (Host.owning typed P).course.Leads installVersion s fun _ _ => True := by
  refine (Host.leads_onHeap Heap.sound_makeVersion held (by simp)).bind fun v t held _ made => ?_
  have owned := made v (by simp)
  refine (Host.leads_onHeap Heap.sound_lock held (by simpa using owned)).bind
    fun _ u held gone _ => ?_
  exact leads_bindPlain held (owned.changes gone)

/-- **The library** is made of new values. -/
theorem leads_install (held : s.Owning typed P) :
    (Host.owning typed P).course.Leads install s fun _ _ => True := by
  unfold install
  refine Leads.bind (Q := fun _ _ => True) (Leads.forM held fun p mem _ held _ => ?_)
    fun _ _ held _ _ => ?_
  · obtain ⟨name, l⟩ := p
    exact leads_installConstant held (fits_constants (name, l) mem)
  refine Leads.bind (Q := fun _ _ => True) (Leads.forM held fun r _ _ held _ => ?_)
    fun _ _ held _ _ => ?_
  · exact leads_installRoutine held
  refine Leads.bind (Q := fun _ _ => True) (Leads.forM held fun p _ _ held _ => ?_)
    fun _ _ held _ _ => ?_
  · obtain ⟨plain, name⟩ := p
    exact leads_installAlias held
  refine (leads_installVersion held).bind fun _ _ held _ _ => ?_
  exact Host.leads_pushFrame held SymbolTable.within_empty

end Library

namespace Host

/-- **Hosts own what is in them** when they start. -/
theorem start_owning {typed : Prop} (settings : Settings) :
    (start settings).Owning typed fun _ => True :=
  (Library.leads_install (bare_owning settings)).atEnd.1

/-- A session starts with a homogeneous heap. -/
theorem session_owning {typed : Prop} (session : Session) :
    session.host.Owning typed fun _ => True := by
  unfold Session.host
  split
  · exact bare_owning session.settings
  · exact start_owning session.settings

/-- **Reachable hosts own what is in them.** -/
theorem Reachable.owning {s : Host} (reachable : s.Reachable) : s.Owning False fun _ => True := by
  obtain ⟨session, run⟩ := reachable
  exact (run.owning (session_owning session)).1

/-- **Every reachable heap is well formed.** -/
theorem Reachable.wellFormed {s : Host} (reachable : s.Reachable) : s.heap.WellFormed :=
  reachable.owning.region.formed

end Host

end ScriptHost
