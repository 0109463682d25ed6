import ScriptHost.Proofs.Host.Run

/-!
# Handlers

A host is attended if every handler that it stores is an executable, for a class of faults that
handlers can be installed for. Handlers come in by one step only, which asks for both. After that
the value under a handler can still be changed, but an executable stays one whatever is done to it.
That a step keeps a host attended is a property of the step alone, `HostM.Attends`, and found for it
by the steps that it is made of. So every reachable host is attended (`Reachable.attended`).
-/

set_option autoImplicit false

namespace ScriptHost

open HostM Course Regime

/-- A class of faults that handlers can be installed for: one that names a failure that can be
caught. -/
def FaultKind.IsHandled (kind : FaultKind) : Prop :=
  ¬ (kind = .null ∨ kind = .ok ∨ kind = .terminate)

namespace Host

/-- Every handler is an executable, for a class of faults that handlers can be installed for. -/
def Attended (s : Host) : Prop := ∀ p ∈ s.handlers, p.1.IsHandled ∧ s.heap.kind p.2 = .executable

/-- Attended hosts, which go over into any others. -/
def attending : Course Host where
  holds := Attended
  goes _ _ := True
  refl _ := trivial
  trans _ _ := trivial

variable {s t : Host}

/-- Only the heap and the handlers count, and handlers can be taken away. -/
theorem Attended.mono (held : s.Attended) (heap : t.heap = s.heap)
    (fewer : t.handlers ⊆ s.handlers) : t.Attended := by
  intro p mem
  rw [heap]
  exact held p (fewer mem)

/-- An executable stays one. -/
theorem Attended.setHeap {h : Heap} (held : s.Attended)
    (lasts : (Heap.lasting False).goes s.heap h) : { s with heap := h }.Attended := by
  intro p mem
  obtain ⟨handled, kind⟩ := held p mem
  exact ⟨handled, ((lasts p.2).lasts kind).1⟩

theorem Attended.handlersFor_eq_nil (held : s.Attended) {kind : FaultKind}
    (unhandled : ¬ kind.IsHandled) : s.handlersFor kind = [] := by
  have none : ∀ p ∈ s.handlers, ¬ decide (p.1 = kind) = true := by
    intro p mem same
    exact unhandled (of_decide_eq_true same ▸ (held p mem).1)
  rw [handlersFor, List.filter_eq_nil_iff.mpr none, List.map_nil]

theorem Attended.executable_of_mem (held : s.Attended) {kind : FaultKind} {v : Handle}
    (mem : v ∈ s.handlersFor kind) : s.heap.kind v = .executable := by
  obtain ⟨p, stored, rfl⟩ := List.mem_map.mp mem
  exact (held p (List.mem_of_mem_filter stored)).2

end Host

/-- A step that keeps a host attended, whether it fails or not. -/
class HostM.Attends {α : Type} (m : HostM α) : Prop where
  leads : ∀ s : Host, s.Attended → Host.attending.Leads m s fun _ _ => True

namespace HostM

open Host

variable {α β : Type}

/-! ## Sequences of steps -/

instance attends_pure (a : α) : (pure a : HostM α).Attends := ⟨fun _ held => .pure held trivial⟩

instance attends_fail (f : Fault) : (fail f : HostM α).Attends := ⟨fun _ held => Leads.fail held⟩

instance attends_bind (m : HostM α) (f : α → HostM β) [first : m.Attends]
    [next : ∀ a, (f a).Attends] : (m >>= f).Attends :=
  ⟨fun s held => (first.leads s held).bind fun a t held _ _ => (next a).leads t held⟩

instance attends_look (f : Host → α) : (look f).Attends :=
  ⟨fun _ held => Leads.hostLook held trivial⟩

instance attends_of (x : Except Fault α) : (of x).Attends :=
  ⟨fun _ held => Leads.hostOf held fun _ _ => trivial⟩

instance attends_forM (l : List α) (f : α → HostM PUnit) [each : ∀ a, (f a).Attends] :
    (l.forM f).Attends :=
  ⟨fun _ held => Leads.forM held fun a _ t held _ => (each a).leads t held⟩

instance attends_mapM (l : List α) (f : α → HostM β) [each : ∀ a, (f a).Attends] :
    (l.mapM f).Attends :=
  ⟨fun _ held => (Leads.mapM (R := fun _ _ => True) (fun _ _ _ _ _ => trivial) held
    fun a _ t held _ => (each a).leads t held).weaken fun _ _ _ _ _ => trivial⟩

/-- A change that keeps the heap and adds no handler. -/
theorem attends_change {f : Host → Host} (heap : ∀ s, (f s).heap = s.heap)
    (fewer : ∀ s, (f s).handlers ⊆ s.handlers) : (change f).Attends :=
  ⟨fun s held => Leads.change (held.mono (heap s) (fewer s)) trivial trivial⟩

/-- A change that keeps the heap and the handlers. -/
theorem attends_aside {f : Host → Host} (heap : ∀ s, (f s).heap = s.heap)
    (handlers : ∀ s, (f s).handlers = s.handlers) : (change f).Attends :=
  attends_change heap fun s => handlers s ▸ List.Subset.refl _

theorem attends_overHeap {m : HeapM α}
    (lasts : ∀ h, (Heap.lasting False).Leads m h fun _ _ => True) : (onHeap m).Attends :=
  ⟨fun s held => Leads.onHeap (lasts s.heap) fun _ _ gone => ⟨held.setHeap gone, trivial⟩⟩

instance attends_onHeap (m : HeapM α) [m.Lasting] : (onHeap m).Attends :=
  attends_overHeap fun h => Heap.lasts m h

/-! ## Environments and tables -/

instance attends_newEnvironment (limit : Nat) : (newEnvironment limit).Attends :=
  ⟨fun _ held => .of_ok rfl (held.mono rfl (List.Subset.refl _)) trivial trivial⟩

instance attends_putEnvironment (name : EnvName) (e : Environment) :
    (putEnvironment name e).Attends := by
  cases name <;> exact attends_aside (fun _ => rfl) fun _ => rfl

instance attends_environment (name : EnvName) : (environment name).Attends := by
  cases name with
  | host => exact attends_look _
  | named n =>
    refine ⟨fun s held => Leads.hostLookBind ?_⟩
    cases Named.find n s.environments with
    | some e => exact .pure held trivial
    | none =>
      dsimp only
      exact Attends.leads s held

instance attends_scope (name : EnvName) : (HostM.scope name).Attends := by
  unfold HostM.scope
  infer_instance

/-- Storing what a step has made of a base table. -/
instance attends_setBase (i : Nat) (t : SymbolTable) :
    (change fun s => { s with bases := s.bases.setIfInBounds i t }).Attends :=
  attends_aside (fun _ => rfl) fun _ => rfl

instance attends_onScope (name : EnvName) (step : ScopeM α) : (onScope name step).Attends := by
  refine ⟨fun s held => (Attends.leads s held).bind fun e t held _ _ => Leads.hostLookBind ?_⟩
  cases step (t.scopeOf e) <;> dsimp only <;> exact Attends.leads t held

instance attends_table (name : String) : (table name).Attends := attends_look _

instance attends_putTable (name : String) (t : SymbolTable) : (putTable name t).Attends :=
  attends_aside (fun _ => rfl) fun _ => rfl

instance attends_onTable (name : String) (step : TableM Unit) : (onTable name step).Attends := by
  refine ⟨fun s held => Leads.hostLookBind ?_⟩
  cases step ((Named.find name s.tables).getD .empty) <;> dsimp only <;> exact Attends.leads s held

instance attends_popFrame (name : EnvName) : (popFrame name).Attends := by
  unfold popFrame
  infer_instance

instance attends_clearScope (name : EnvName) : (clearScope name).Attends := attends_onScope _ _

/-! ## Clones of environments -/

instance lasting_cloned (t : SymbolTable) (kind : CloneKind) : (t.cloned kind).Lasting := by
  unfold SymbolTable.cloned
  cases kind <;> infer_instance

instance attends_loadBase (source target : Nat) (kind : CloneKind) :
    (loadBase source target kind).Attends := by
  refine ⟨fun s held => Leads.hostLookBind ((Attends.leads s held).bind fun bs t held _ _ =>
    Leads.hostLookBind ?_)⟩
  cases SymbolTable.load bs (t.base target) <;> dsimp only <;> exact Attends.leads t held

instance attends_loadInto (source : Environment) (name : EnvName) (kind : CloneKind) :
    (loadInto source name kind).Attends := by
  unfold loadInto SymbolTable.duplicate
  infer_instance

instance attends_cloneInto (source : Environment) (name : EnvName) (kind : CloneKind) :
    (cloneInto source name kind).Attends := by
  unfold cloneInto
  cases kind <;> infer_instance

/-! ## Acts -/

/-- **Handlers come in here.** What the step asks for is what an attended host has. -/
instance attends_pushHandler (kind : FaultKind) (v : Handle) : (pushHandler kind v).Attends := by
  refine ⟨fun s held => ?_⟩
  unfold pushHandler
  by_cases handled : kind.IsHandled
  · rw [if_neg handled]
    refine Leads.hostHeapLookBind ?_
    split
    · exact Leads.fail held
    · refine Leads.change (fun p mem => ?_) trivial trivial
      rcases List.mem_cons.mp mem with rfl | mem
      · exact ⟨handled, of_not_not ‹_›⟩
      · exact held p mem
  · rw [if_pos (of_not_not handled)]
    exact Leads.fail held

instance attends_popHandler (kind : FaultKind) : (popHandler kind).Attends := by
  have erased : (change fun s => { s with handlers := s.handlers.eraseP (·.1 = kind) }).Attends :=
    attends_change (fun _ => rfl) fun s => List.eraseP_subset
  unfold popHandler
  infer_instance

instance attends_bindPlace (v : Handle) (place : Place) : (place.bind v).Attends := by
  cases place <;> unfold Place.bind <;> infer_instance

theorem attending_aside : attending.Aside :=
  fun _ _ _ held => ⟨held.mono rfl (List.Subset.refl _), trivial⟩

instance attends_draw (d : Draw) : d.perform.Attends :=
  ⟨fun _ held => (attending_aside.leads_perform d (fun _ _ => True) held).weaken
    fun _ _ _ _ _ => trivial⟩

instance attends_effect (step : HostM Unit) [step.Attends] : (effect step).Attends := by
  unfold effect
  infer_instance

instance attends_heapEffect (m : HeapM Unit) [m.Lasting] : (heapEffect m).Attends :=
  attends_effect _

instance attends_scopeReport (name : EnvName) (f : Scope → Report) :
    (scopeReport name f).Attends := by
  unfold scopeReport
  infer_instance

instance attends_command (c : Command) : c.perform.Attends := by
  cases c with
  -- the commands that change the state at once; none of them adds a handler
  | interrupt | resetInterrupt =>
    have flagged : ∀ b : Bool, (change fun s => { s with interrupted := b }).Attends :=
      fun _ => attends_aside (fun _ => rfl) fun _ => rfl
    exact attends_effect _
  | handlersClear =>
    have cleared : (change fun s => { s with handlers := [] }).Attends :=
      attends_change (fun _ => rfl) fun _ => List.nil_subset _
    exact attends_effect _
  | pushTable env name =>
    have dropped : (change fun s => { s with tables := Named.drop name s.tables }).Attends :=
      attends_aside (fun _ => rfl) fun _ => rfl
    exact attends_effect _
  -- the others are made of steps that are known
  | callDepth | isInterrupted | handlersDepth _ | handlersSnapshot _ | settings | tableGet _ _
  | tableOverload _ _ _ | tableContains _ _ | tableKeys _ | popFrame _ | handlersPop _ | lookup _ _
  | lookupOverload _ _ _ => exact attends_bind _ _
  | symbolExists _ _ | envStats _ | baseKeys _ | listing _ | histogram _ =>
    exact attends_scopeReport _ _
  | draw d => exact attends_draw d
  | newEnv _ _ | pushFrame _ | clearEnv _ | cloneEnv _ _ _ | loadEnv _ _ _ | newTable _
  | clearTable _ | loadTable _ _ _ =>
    exact attends_effect _
  | duplicateTable source target kind =>
    have copied : ∀ t : SymbolTable, (t.duplicate kind).Lasting := fun t => HeapM.lasting_bind _ _
    exact attends_effect _
  | param name =>
    have found : (param name).Attends := attends_bind _ _
    exact attends_bind _ _
  | sharesBase a b =>
    have shared : (HostM.sharesBase a b).Attends := attends_bind _ _
    exact attends_bind _ _

/-! ## Frames of calls -/

instance attends_bound (mode : BindingMode) (arg : Handle) : (bound mode arg).Attends := by
  unfold bound
  cases mode <;> infer_instance

instance attends_frame (bindings : List (Symbol × Handle)) : (frame bindings).Attends := by
  unfold frame
  split <;> infer_instance

instance attends_bindings (params : List Param) (args : List Handle) :
    (bindings params args).Attends := by
  unfold bindings
  infer_instance

instance attends_bindParams (c : Callable) (args : List Handle) : (bindParams c args).Attends := by
  unfold bindParams
  infer_instance

instance attends_resolve (name : String) (arity : Nat) : (resolve name arity).Attends := by
  unfold resolve
  infer_instance

instance attends_callStates (name : String) (args : List Handle) :
    (callStates name args).Attends := by
  unfold callStates imageOf
  infer_instance

/-- A frame for a while. -/
instance attends_framed (env : EnvName) (step : HostM α) [inner : step.Attends] :
    (framed env step).Attends := by
  have push : ∀ s : Host, s.Attended →
      attending.Leads (onScope env (Scope.push .empty)) s fun _ t => t.Attended :=
    fun s held => (Attends.leads s held).weaken fun _ _ held _ _ => held
  refine ⟨fun s held =>
    leads_framed (D := attending) (push s held) (fun t held _ => inner.leads t held) ?_⟩
  intro t u _ held _
  have pop : attending.Leads (popFrame env) u fun _ _ => True := Attends.leads u held
  exact pop.atEnd

instance attends_scopeReports (env : EnvName) (bindings : List (String × Handle))
    (keys : List String) : (scopeReports env bindings keys).Attends := by
  have depth : (depthOf env).Attends := attends_bind _ _
  refine @attends_framed _ env _ ⟨fun s held => ?_⟩
  refine (leads_scopeBody (C := attending) (fun t held => Attends.leads t held) held ?_ ?_).weaken
    fun _ _ _ _ _ => trivial
  · exact fun b _ t held _ => Attends.leads t held
  · exact fun t held => Attends.leads t held

end HostM

/-! ## Evaluations -/

namespace Host

/-- Attended hosts; programs use any values. -/
def attended : Regime where
  course := attending
  uses _ _ := True

/-- A step that keeps hosts attended keeps to the regime, whatever it yields. -/
theorem attended_yields {m : HostM Yield} [m.Attends] {s : Host} (held : s.Attended) :
    attended.course.Leads m s fun y t => y.All (attended.uses t) :=
  (Attends.leads s held).weaken fun y _ _ _ _ => by cases y <;> trivial

/-- **Hosts stay attended**, whatever the program. -/
theorem attended_lawful : attended.Lawful fun _ => return () := by
  have heapLaw : attended.HeapLawful :=
    { lasts := fun _ _ => trivial
      heap := fun _ held _ => (Attends.leads _ held).weaken fun _ _ _ _ _ _ _ => trivial }
  have assigned : ∀ a b : Handle, (onHeap (HeapM.assign a b)).Attends :=
    fun a b => attends_overHeap (Heap.lasts_assign a b)
  exact {
    heapLaw with
    found := fun _ _ => trivial
    overload := fun _ _ => trivial
    register := fun _ _ => trivial
    aside := attending_aside
    hold := fun held _ => Leads.change (held.mono rfl (List.Subset.refl _)) trivial trivial
    pushHandler := fun held _ => Attends.leads _ held
    popHandler := fun held => Attends.leads _ held
    command := fun c held => attended_yields held
    bind := fun place held _ => attended_yields held
    operate := fun op held _ _ =>
      (heapLaw.leads_binary op held trivial trivial (fun _ => Attends.leads _ held)
      fun _ _ => Attends.leads _ held).continued rfl trivial
    setElements := fun held _ _ => attended_yields held
    restore := fun _ _ _ _ held _ _ => Attends.leads _ held
    enter := fun held _ => Attends.leads _ held
    counted := fun held => ⟨held, fun held _ => ⟨held, trivial, fun _ _ => trivial⟩⟩
    unwind := fun _ held _ => ⟨held, trivial, fun _ _ => trivial⟩
    callStates := fun held _ => attended_yields held
    scopes := fun held _ => attended_yields held }

/-! ## Runs -/

variable {P : Handle → Prop} {s t : Host}

/-- **One step** keeps a host attended. -/
theorem Step.attended (step : Step P s t) (held : s.Attended) : t.Attended := by
  cases step with
  | evaluate e levels => exact (attended_lawful.leads_watched e levels held).atEnd.1
  | enter c args owned =>
    have entered : attending.Leads (bindParams c args) s fun _ _ => True := Attends.leads s held
    exact entered.atEnd.1
  | hold _ _ _ | leave _ | count _ | log _ => exact held

/-- **A run** keeps a host attended. -/
theorem Run.attended (run : Run P s t) (held : s.Attended) : t.Attended := by
  induction run with
  | refl => exact held
  | tail _ step ih => exact step.attended ih

theorem bare_attended (settings : Settings) : (bare settings).Attended := fun _ mem => nomatch mem

/-- The library has no handlers. -/
theorem start_attended (settings : Settings) : (start settings).Attended := by
  have bindPlain : ∀ (name : String) (v : Handle), (Library.bindPlain name v).Attends :=
    fun _ _ => attends_onScope _ _
  have constant : ∀ (name : String) (l : Leaf), (Library.installConstant name l).Attends :=
    fun _ _ => attends_bind _ _
  have routine : ∀ r : Routine, (Library.installRoutine r).Attends := fun _ => attends_bind _ _
  have synonym : ∀ plain name : String, (Library.installAlias plain name).Attends :=
    fun _ _ => attends_bind _ _
  have version : Library.installVersion.Attends := attends_bind _ _
  have install : Library.install.Attends := attends_bind _ _
  exact (install.leads _ (bare_attended settings)).atEnd.1

theorem session_attended (session : Session) : session.host.Attended := by
  unfold Session.host
  split
  · exact bare_attended session.settings
  · exact start_attended session.settings

/-- **Every reachable host is attended.** -/
theorem Reachable.attended (reachable : s.Reachable) : s.Attended := by
  obtain ⟨session, run⟩ := reachable
  exact run.attended (session_attended session)

end Host

end ScriptHost
