import ScriptHost.Proofs.Host.Evaluation
import ScriptHost.Proofs.Scope.Growth

/-!
# Hosts that own their values

`Host.Owning typed P` says that the heap of a host is a region with the owned cells `P`, homogeneous
if it is to be, and that everything the host can lead a program to, through tables, frames and
registers, is owned. Every evaluation changes owned cells only; and it keeps a homogeneous heap so
under a watch that lets no element of another kind be stored: `Host.owning_lawful` checks the laws
of the regime, whatever `P` is.
-/

set_option autoImplicit false

namespace ScriptHost

open HostM Course Regime

/-! ## Elements that do not fit -/

/-- Values that are put into an array without a check of their kinds, and the step that does it. -/
structure Placement where
  array : Handle
  items : List Handle
  step : HeapM Unit

namespace Act

/-- What an act is about to place. -/
def placement? : Act → Option Placement
  | .operate (.insertAt position) array v => some ⟨array, [v], HeapM.insertAt array v position⟩
  | .setElements array items => some ⟨array, items, HeapM.setElements array items⟩
  | _ => none

/-- Whether an act places only what the array admits, or fails. -/
def Fits (h : Heap) (act : Act) : Prop :=
  ∀ p ∈ act.placement?, p.step.succeeds h = true → ∀ v ∈ p.items, h.Admits p.array v

instance (h : Heap) (act : Act) : Decidable (act.Fits h) :=
  inferInstanceAs (Decidable (∀ p ∈ act.placement?, p.step.succeeds h = true →
    ∀ v ∈ p.items, h.Admits p.array v))

end Act

namespace Host

/-- Every value that a host holds on to for its program has a property. -/
structure Within (V : Handle → Prop) (s : Host) : Prop where
  bases : ∀ i, (s.base i).Within V
  frames : ∀ f ∈ s.env.stack.frames, f.Within V
  registers : ∀ p ∈ s.registers, V p.2
  environments : ∀ p ∈ s.environments, ∀ f ∈ p.2.stack.frames, f.Within V
  tables : ∀ p ∈ s.tables, p.2.Within V

/-- The heap is a region, homogeneous if it is to be, and what the host holds on to is owned. -/
structure Owning (typed : Prop) (P : Handle → Prop) (s : Host) : Prop where
  realm : s.heap.Realm typed P
  within : s.Within (s.heap.Owned P)

/-- Hosts that own their values; they change owned cells, and programs use owned ones. -/
def owning (typed : Prop) (P : Handle → Prop) : Regime where
  course :=
    { holds := Owning typed P
      goes := fun s t => Heap.Changes P s.heap t.heap
      refl := fun _ => .refl
      trans := fun first second => first.trans second }
  uses s v := s.heap.Owned P v

/-- What a host owns is a region of its heap: nothing that is owned leads out of it. -/
theorem Owning.region {typed : Prop} {P : Handle → Prop} {s : Host} (held : s.Owning typed P) :
    s.heap.Region P :=
  held.realm.toRegion

/-! ## The base tables -/

/-- A base table that is replaced is the only one that changes. -/
theorem base_setBase (s : Host) (i j : Nat) (t : SymbolTable) :
    { s with bases := s.bases.setIfInBounds i t }.base j = if i = j ∧ i < s.bases.size then t
      else s.base j := by
  unfold base
  by_cases same : i = j
  · subst same
    by_cases inside : i < s.bases.size <;> simp [inside]
  · simp [same]

theorem base_pushBase (s : Host) (j : Nat) :
    { s with bases := s.bases.push .empty }.base j = s.base j := by
  unfold base
  by_cases last : j = s.bases.size
  · subst last
    simp
  · simp [Array.getElem?_push, last]

namespace Within

variable {V W : Handle → Prop} {s : Host}

/-- A host that keeps to some values keeps to all that include them. -/
theorem mono (within : s.Within V) (weaker : ∀ v, V v → W v) : s.Within W where
  bases i := (within.bases i).mono weaker
  frames f mem := (within.frames f mem).mono weaker
  registers p mem := weaker _ (within.registers p mem)
  environments p mem f inner := (within.environments p mem f inner).mono weaker
  tables p mem := (within.tables p mem).mono weaker

/-- The heap, the handlers and the rest do not count. -/
theorem congr {t : Host} (within : s.Within V) (bases : t.bases = s.bases) (env : t.env = s.env)
    (registers : t.registers = s.registers) (environments : t.environments = s.environments)
    (tables : t.tables = s.tables) : t.Within V where
  bases i := by
    have same : t.base i = s.base i := by simp only [base, bases]
    rw [same]
    exact within.bases i
  frames := env ▸ within.frames
  registers := registers ▸ within.registers
  environments := environments ▸ within.environments
  tables := tables ▸ within.tables

/-- One base table may be replaced by another that keeps to the values. -/
theorem setBase (within : s.Within V) {i : Nat} {t : SymbolTable} (table : t.Within V) :
    { s with bases := s.bases.setIfInBounds i t }.Within V where
  bases j := by
    rw [base_setBase]
    split
    · exact table
    · exact within.bases j
  frames := within.frames
  registers := within.registers
  environments := within.environments
  tables := within.tables

/-- A new base table is empty, so it keeps to anything. -/
theorem pushBase (within : s.Within V) : { s with bases := s.bases.push .empty }.Within V where
  bases j := by
    rw [base_pushBase]
    exact within.bases j
  frames := within.frames
  registers := within.registers
  environments := within.environments
  tables := within.tables

/-- What is found through an environment is found in its frames or in a base table. -/
theorem scopeOf (within : s.Within V) {e : Environment}
    (frames : ∀ f ∈ e.stack.frames, f.Within V) : (s.scopeOf e).Within V :=
  ⟨within.bases e.base, frames⟩

end Within

/-! ## Environments and tables -/

section Steps

variable {typed : Prop} {P : Handle → Prop} {s : Host}

/-- A change that leaves the heap alone. -/
theorem leads_change {f : Host → Host} (held : Owning typed P s) (same : (f s).heap = s.heap)
    (within : (f s).Within (s.heap.Owned P)) :
    (owning typed P).course.Leads (change f) s fun _ _ => True := by
  have realm : (f s).heap.Realm typed P := by
    rw [same]
    exact held.realm
  have gone : Heap.Changes P s.heap (f s).heap := by rw [same]
  refine Leads.change ⟨realm, ?_⟩ gone trivial
  rw [same]
  exact within

/-- A new environment has no frames, and its base table is a new one. -/
theorem leads_newEnvironment {limit : Nat} (held : Owning typed P s) :
    (owning typed P).course.Leads (newEnvironment limit) s fun e _ => e.stack.frames = [] :=
  .of_ok rfl ⟨held.realm, held.within.pushBase⟩ .refl rfl

/-- An environment may be put in place whose frames bind what is owned. -/
theorem leads_putEnvironment {name : EnvName} {e : Environment} (held : Owning typed P s)
    (frames : ∀ f ∈ e.stack.frames, f.Within (s.heap.Owned P)) :
    (owning typed P).course.Leads (putEnvironment name e) s fun _ _ => True := by
  cases name with
  | host => exact leads_change held rfl { held.within with frames := frames }
  | named n =>
    refine leads_change held rfl { held.within with environments := fun p mem => ?_ }
    obtain rfl | mem := Named.mem_put mem
    · exact frames
    · exact held.within.environments p mem

/-- The environments of a host bind what is owned. -/
theorem leads_environment {name : EnvName} (held : Owning typed P s) :
    (owning typed P).course.Leads (environment name) s fun e t =>
      ∀ f ∈ e.stack.frames, f.Within (t.heap.Owned P) := by
  cases name with
  | host => exact Leads.hostLook held held.within.frames
  | named n =>
    refine Leads.hostLookBind ?_
    cases found : Named.find n s.environments with
    | some e => exact .pure held (held.within.environments _ (Named.mem_of_find found))
    | none =>
      refine (leads_newEnvironment held).bind fun e t held _ none => ?_
      have frames : ∀ f ∈ e.stack.frames, ∀ V, f.Within V := by simp [none]
      refine (leads_putEnvironment held fun f mem => frames f mem _).bind fun _ u held _ _ =>
        .pure held ?_
      exact fun f mem => frames f mem _

theorem leads_scope {name : EnvName} (held : Owning typed P s) :
    (owning typed P).course.Leads (HostM.scope name) s fun e t => e.Within (t.heap.Owned P) :=
  (leads_environment held).bind fun _ _ held _ frames =>
    Leads.hostLook held (held.within.scopeOf frames)

/-- A step over a scope that keeps to owned values. -/
theorem leads_onScope {name : EnvName} {step : ScopeM Unit} (held : Owning typed P s)
    (steps : ∀ (t : Host) (e : Scope), (owning typed P).course.goes s t →
      e.Within (t.heap.Owned P) → (endState step e).Within (t.heap.Owned P)) :
    (owning typed P).course.Leads (onScope name step) s fun _ _ => True := by
  refine (leads_environment held).bind fun e t held gone frames => Leads.hostLookBind ?_
  have kept := steps t (t.scopeOf e) gone (held.within.scopeOf frames)
  have store : ∀ u : Scope, u.Within (t.heap.Owned P) → (owning typed P).course.Leads (do
      change fun s => { s with bases := s.bases.setIfInBounds e.base u.base }
      putEnvironment name { e with stack := u.stack }) t fun _ _ => True := by
    intro u kept
    have base : Owning typed P { t with bases := t.bases.setIfInBounds e.base u.base } :=
      ⟨held.realm, held.within.setBase kept.base⟩
    exact (leads_putEnvironment base kept.frames).continued rfl .refl
  cases ends : step (t.scopeOf e) with
  | ok a u =>
    simp only [endState, ends] at kept
    exact (store u kept).bind fun _ _ held _ _ => .pure held trivial
  | error f u =>
    simp only [endState, ends] at kept
    exact (store u kept).bind fun _ _ held _ _ => Leads.fail held

/-- The tables that a program keeps bind what is owned. -/
theorem leads_table {name : String} (held : Owning typed P s) :
    (owning typed P).course.Leads (table name) s fun t u => t.Within (u.heap.Owned P) := by
  refine Leads.hostLook held ?_
  cases found : Named.find name s.tables with
  | some t => exact held.within.tables _ (Named.mem_of_find found)
  | none => exact SymbolTable.within_empty

/-- A table may be kept that binds what is owned. -/
theorem leads_putTable {name : String} {t : SymbolTable} (held : Owning typed P s)
    (table : t.Within (s.heap.Owned P)) :
    (owning typed P).course.Leads (putTable name t) s fun _ _ => True := by
  refine leads_change held rfl { held.within with tables := fun p mem => ?_ }
  obtain rfl | mem := Named.mem_put mem
  · exact table
  · exact held.within.tables p mem

/-- A step on a table that adds nothing foreign to it. -/
theorem leads_onTable {name : String} {step : TableM Unit} (held : Owning typed P s)
    (steps : ∀ t : SymbolTable, t.Within (s.heap.Owned P) →
      (endState step t).Within (s.heap.Owned P)) :
    (owning typed P).course.Leads (onTable name step) s fun _ _ => True := by
  refine Leads.hostLookBind ?_
  have kept := steps ((Named.find name s.tables).getD .empty) ?_
  · cases ends : step ((Named.find name s.tables).getD .empty) with
    | ok a u =>
      simp only [endState, ends] at kept
      exact leads_putTable held kept
    | error f u =>
      simp only [endState, ends] at kept
      exact (leads_putTable held kept).bind fun _ _ held _ _ => Leads.fail held
  · exact ((leads_table held).ok (t := s) rfl).2.2

/-- A step over the heap that keeps to owned cells. -/
theorem leads_overHeap {α : Type} {m : HeapM α} {Q : α → Heap → Prop}
    (leads : (Heap.course typed P).Leads m s.heap Q) (held : Owning typed P s) :
    (owning typed P).course.Leads (onHeap m) s fun a t => Q a t.heap := by
  refine Leads.onHeap leads fun h realm gone => ⟨⟨realm, ?_⟩, gone⟩
  exact (held.within.mono fun _ owned => owned.changes gone).congr rfl rfl rfl rfl rfl

/-- **Operations on values**: those that are sound for what they are given, given what is owned. -/
theorem leads_onHeap {α : Type} {m : HeapM α} {given : List Handle} {yields : α → List Handle}
    (sound : m.Sound given yields) (held : Owning typed P s)
    (used : ∀ v ∈ given, s.heap.Owned P v) :
    (owning typed P).course.Leads (onHeap m) s fun a t => ∀ v ∈ yields a, t.heap.Owned P v :=
  leads_overHeap (sound P s.heap held.realm used) held

/-! ## Clones of environments -/

/-- A base table is loaded with copies or aliases of what another one binds, and all of that is
owned. -/
theorem leads_loadBase {source target : Nat} {kind : CloneKind} (held : Owning typed P s) :
    (owning typed P).course.Leads (loadBase source target kind) s fun _ _ => True := by
  have known : ∀ v ∈ (s.base source).bindings.map (·.2), s.heap.Owned P v := by
    simpa using fun v r mem => held.within.bases source (r, v) mem
  refine Leads.hostLookBind ((leads_onHeap SymbolTable.sound_cloned held known).bind
    fun bs t held _ owned => ?_)
  refine Leads.hostLookBind ?_
  have allowed : ∀ b ∈ bs, t.heap.Owned P b.2 := fun b mem => owned b.2 (List.mem_map_of_mem mem)
  have kept := (SymbolTable.leads_load (held.within.bases target) allowed).atEnd.1
  have store : ∀ u : SymbolTable, u.Within (t.heap.Owned P) → (owning typed P).course.Leads
      (change fun s => { s with bases := s.bases.setIfInBounds target u }) t fun _ _ => True :=
    fun u kept => leads_change held rfl (held.within.setBase kept)
  cases ends : SymbolTable.load bs (t.base target) with
  | ok a u =>
    simp only [endState, ends] at kept
    exact store u kept
  | error f u =>
    simp only [endState, ends] at kept
    exact (store u kept).bind fun _ _ held _ _ => Leads.fail held

theorem leads_pushFrame {name : EnvName} {frame : SymbolTable} (held : Owning typed P s)
    (allowed : frame.Within (s.heap.Owned P)) :
    (owning typed P).course.Leads (onScope name (Scope.push frame)) s fun _ _ => True :=
  leads_onScope held fun _ _ gone within =>
    (Scope.leads_push (F := []) within (List.nil_suffix) (allowed.mono fun _ owned =>
      owned.changes gone)).atEnd.1.1

/-- An environment is loaded with another one: its base table first, then its frames from the oldest
on. -/
theorem leads_loadInto {source : Environment} {name : EnvName} {kind : CloneKind}
    (held : Owning typed P s) (frames : ∀ f ∈ source.stack.frames, f.Within (s.heap.Owned P)) :
    (owning typed P).course.Leads (loadInto source name kind) s fun _ _ => True := by
  refine (leads_environment held).bind fun e t held one _ =>
    (leads_loadBase held).bind fun _ u held two _ => ?_
  refine Leads.forM held fun frame mem w held three => ?_
  have gone := one.trans (two.trans three)
  have known : ∀ v ∈ frame.bindings.map (·.2), w.heap.Owned P v := by
    simpa using fun v r bound => (frames frame (by simpa using mem) (r, v) bound).changes gone
  refine (leads_onHeap SymbolTable.sound_duplicate held known).bind fun copy x held _ owned => ?_
  exact leads_pushFrame held fun b mem => owned b.2 (List.mem_map_of_mem mem)

/-- A clone shares the base table of its source or has one of its own, and binds nothing foreign
either way. -/
theorem leads_cloneInto {source : Environment} {name : EnvName} {kind : CloneKind}
    (held : Owning typed P s) (frames : ∀ f ∈ source.stack.frames, f.Within (s.heap.Owned P)) :
    (owning typed P).course.Leads (cloneInto source name kind) s fun _ _ => True := by
  have load : (owning typed P).course.Leads (do
      putEnvironment name (← newEnvironment source.stack.limit)
      loadInto source name kind) s fun _ _ => True := by
    refine (leads_newEnvironment held).bind fun e t held one none => ?_
    refine (leads_putEnvironment held (by simp [none])).bind fun _ u held two _ =>
      leads_loadInto held ?_
    exact fun f mem => (frames f mem).mono fun _ owned => owned.changes (one.trans two)
  cases kind with
  | minimal =>
    have empty : ∀ f ∈ (Stack.empty source.stack.limit).frames, f.Within (s.heap.Owned P) := by
      simp [Stack.empty]
    exact (leads_putEnvironment held empty).bind fun _ t held _ _ =>
      leads_pushFrame held SymbolTable.within_empty
  | shallow => exact load
  | deep => exact load

theorem leads_popFrame {name : EnvName} (held : Owning typed P s) :
    (owning typed P).course.Leads (popFrame name) s fun _ _ => True := by
  refine (leads_environment held).bind fun e t held _ frames => ?_
  refine (leads_putEnvironment held fun f mem => frames f (List.mem_of_mem_tail mem)).bind
    fun _ u held _ _ => ?_
  exact .pure held trivial

theorem leads_clearScope {name : EnvName} (held : Owning typed P s) :
    (owning typed P).course.Leads (clearScope name) s fun _ _ => True :=
  leads_onScope held fun _ _ _ _ => ⟨SymbolTable.within_empty, by simp [endState, Scope.clear]⟩

/-! ## Acts -/

/-- Ownership takes no notice of the random stream and of the log. -/
theorem owning_aside : (owning typed P).course.Aside := fun _ _ _ held =>
  ⟨⟨held.realm, held.within.congr rfl rfl rfl rfl rfl⟩, .refl⟩

/-- Ownership asks of handlers only that they are owned. -/
theorem owning_unguarded : (owning typed P).course.Unguarded := fun _ _ _ held =>
  ⟨⟨held.realm, held.within.congr rfl rfl rfl rfl rfl⟩, .refl⟩

theorem leads_bindPlace {v : Handle} (place : Place) (held : Owning typed P s)
    (owned : s.heap.Owned P v) :
    (owning typed P).course.Leads (place.bind v) s fun _ _ => True := by
  have spares : ∀ (e : Scope) (key : String), e.Spares [] key := fun _ _ => .inl rfl
  cases place with
  | symbol env key =>
    refine (leads_onHeap Heap.sound_look held (by simp)).bind fun d t held gone _ =>
      leads_onScope held ?_
    intro u e further within
    have owned := owned.changes (gone.trans further)
    exact (Scope.leads_insert within (List.nil_suffix) (spares e key) owned).atEnd.1.1
  | plainSymbol env key =>
    refine leads_onScope held fun u e gone within => ?_
    exact (Scope.leads_insertPlain within (List.nil_suffix) (spares e key)
      (owned.changes gone)).atEnd.1.1
  | tableSymbol table key =>
    refine (leads_onHeap Heap.sound_look held (by simp)).bind fun d t held gone _ =>
      leads_onTable held fun u within => ?_
    exact (SymbolTable.leads_bindAll within (owned.changes gone)).atEnd.1
  | tablePlain table key =>
    exact leads_onTable held fun u within => (SymbolTable.leads_bind within owned).atEnd.1
  | handler kind => exact owning_unguarded.leads_pushHandler held

theorem leads_tableValue {name : String} {r : Symbol} (held : Owning typed P s) :
    (owning typed P).course.Leads (tableValue name r) s fun y t => y.All (t.heap.Owned P) := by
  refine (leads_table held).bind fun t u held _ within => .pure held ?_
  cases found : t.get? r with
  | none => trivial
  | some v => exact within.get? found

/-- **Commands** yield what is owned, and bind and store nothing else. -/
theorem leads_command (c : Command) (held : Owning typed P s) :
    (owning typed P).course.Leads c.perform s fun y t => y.All (t.heap.Owned P) := by
  have report : ∀ {f : Host → Report}, (owning typed P).course.Leads (lookReport f) s fun y t =>
      y.All (t.heap.Owned P) :=
    Leads.hostLookBind (.pure held trivial)
  have about : ∀ {name : EnvName} {f : Scope → Report},
      (owning typed P).course.Leads (scopeReport name f) s fun y t => y.All (t.heap.Owned P) :=
    (leads_scope held).bind fun _ _ held _ _ => .pure held trivial
  cases c with
  | callDepth | isInterrupted | handlersDepth _ | handlersSnapshot _ | settings => exact report
  | symbolExists _ _ | envStats _ | baseKeys _ | listing _ | histogram _ => exact about
  | draw d => exact owning_aside.leads_perform d _ held
  | param name =>
    refine Leads.hostLookBind (Leads.hostOf held fun v run => ?_) |>.bind fun _ _ held _ owned =>
      .pure held owned
    exact (held.within.scopeOf held.within.frames).lookup run
  | interrupt =>
    obtain ⟨after, gone⟩ := owning_unguarded s s.handlers true held
    exact .of_ok rfl after gone trivial
  | resetInterrupt =>
    obtain ⟨after, gone⟩ := owning_unguarded s s.handlers false held
    exact .of_ok rfl after gone trivial
  | handlersPop kind =>
    exact (owning_unguarded.leads_popHandler held).bind fun _ _ held _ _ => .pure held trivial
  | handlersClear =>
    obtain ⟨after, gone⟩ := owning_unguarded s [] s.interrupted held
    exact .of_ok rfl after gone trivial
  | newEnv env limit =>
    refine leads_effect ((leads_newEnvironment held).bind fun e t held _ none => ?_)
    exact leads_putEnvironment held (by simp [none])
  | pushFrame env => exact leads_effect (leads_pushFrame held SymbolTable.within_empty)
  | popFrame env => exact (leads_popFrame held).bind fun _ _ held _ _ => .pure held trivial
  | pushTable env name =>
    refine leads_effect ((leads_table held).bind fun frame t held _ owned => ?_)
    have dropped : t.Within (t.heap.Owned P) →
        { t with tables := Named.drop name t.tables }.Within (t.heap.Owned P) :=
      fun within => { within with tables := fun p mem => within.tables p (Named.mem_drop mem) }
    refine (leads_change held rfl (dropped held.within)).bind fun _ u held gone _ =>
      leads_pushFrame held ?_
    exact owned.mono fun _ owned => owned.changes gone
  | lookup env key =>
    refine (leads_scope held).bind fun e t held _ within =>
      Leads.hostOfBind held fun v run => .pure held ?_
    exact within.lookup run
  | lookupOverload env name arity =>
    refine (leads_scope held).bind fun e t held _ within =>
      Leads.hostOfBind held fun v run => .pure held ?_
    exact within.lookupOverload run
  | clearEnv env => exact leads_effect (leads_clearScope held)
  | cloneEnv source target kind =>
    exact leads_effect ((leads_environment held).bind fun _ _ held _ frames =>
      leads_cloneInto held frames)
  | loadEnv source target kind =>
    exact leads_effect ((leads_environment held).bind fun _ _ held _ frames =>
      leads_loadInto held frames)
  | sharesBase a b =>
    have shared : (owning typed P).course.Leads (HostM.sharesBase a b) s fun _ _ => True :=
      (leads_environment held).bind fun _ _ held _ _ =>
        (leads_environment held).bind fun _ _ held _ _ => .pure held trivial
    exact shared.bind fun _ _ held _ _ => .pure held trivial
  | newTable name | clearTable name =>
    exact leads_effect (leads_putTable held SymbolTable.within_empty)
  | tableGet name key => exact leads_tableValue held
  | tableOverload name key arity => exact leads_tableValue held
  | tableContains name key | tableKeys name =>
    exact (leads_table held).bind fun _ _ held _ _ => .pure held trivial
  | duplicateTable source target kind =>
    refine leads_effect ((leads_table held).bind fun t u held _ within => ?_)
    refine (leads_onHeap SymbolTable.sound_duplicate held
      (by simpa using fun v r mem => within (r, v) mem)).bind fun copy w held _ owned => ?_
    exact leads_putTable held fun b mem => owned b.2 (List.mem_map_of_mem mem)
  | loadTable source target kind =>
    refine leads_effect ((leads_table held).bind fun t u held _ within => ?_)
    refine (leads_onHeap SymbolTable.sound_cloned held
      (by simpa using fun v r mem => within (r, v) mem)).bind
      fun bs w held _ owned => leads_onTable held fun x within => ?_
    exact (SymbolTable.leads_load within fun b mem => owned b.2 (List.mem_map_of_mem mem)).atEnd.1

/-! ## Frames of calls -/

/-- Arguments are owned, and so are the copies that are made of those that are passed by value. -/
theorem leads_bindings {params : List Param} {args : List Handle} (held : Owning typed P s)
    (owned : ∀ v ∈ args, s.heap.Owned P v) :
    (owning typed P).course.Leads (HostM.bindings params args) s fun bs t =>
      ∀ b ∈ bs, t.heap.Owned P b.2 := by
  refine Leads.mapM (R := fun (b : Symbol × Handle) (t : Host) => t.heap.Owned P b.2)
    (fun _ _ _ owned gone => owned.changes gone) held fun (p, a) mem t held gone => ?_
  have given := (owned a (List.of_mem_zip mem).2).changes gone
  have bound : (owning typed P).course.Leads (bound p.mode a) t fun v u => u.heap.Owned P v := by
    cases p.mode with
    | reference => exact .pure held given
    | value =>
      exact (leads_onHeap Heap.sound_copy held (by simpa using given)).weaken fun c _ _ _ owned =>
        owned c (by simp)
  exact bound.bind fun _ _ held _ owned => .pure held owned

/-- The frame of a call binds the arguments and their copies. -/
theorem leads_bindParams {c : Callable} {args : List Handle} (held : Owning typed P s)
    (owned : ∀ v ∈ args, s.heap.Owned P v) :
    (owning typed P).course.Leads (bindParams c args) s fun _ _ => True := by
  refine (leads_bindings held owned).bind fun bs t held _ owned => ?_
  refine (Course.leads_frame held).bind fun f u held gone ⟨_, loaded⟩ => ?_
  have within := ((SymbolTable.leads_load SymbolTable.within_empty owned).ok loaded).1
  refine (leads_pushFrame held (within.mono fun _ owned => owned.changes gone)).bind
    fun _ _ held _ _ => .pure held trivial

/-- A step in a frame of its own, which is dropped after it however it ends. -/
theorem leads_framed {α : Type} {env : EnvName} {step : HostM α} {Q : α → Prop}
    (held : Owning typed P s)
    (inner : ∀ t, Owning typed P t → (owning typed P).course.goes s t →
      (owning typed P).course.Leads step t fun a _ => Q a) :
    (owning typed P).course.Leads (framed env step) s fun a _ => Q a := by
  have push : (owning typed P).course.Leads (onScope env (Scope.push .empty)) s fun _ t =>
      Owning typed P t :=
    (leads_pushFrame held SymbolTable.within_empty).weaken fun _ _ held _ _ => held
  refine Course.leads_framed (D := (owning typed P).course) push inner
    fun t u gone held further => ?_
  have pop : (owning typed P).course.Leads (popFrame env) u fun _ _ => True := leads_popFrame held
  exact ⟨pop.atEnd.1, gone.trans (further.trans pop.atEnd.2)⟩

/-- What is bound for a report is unbound after it. -/
theorem leads_scopeReports {env : EnvName} {bindings : List (String × Handle)} {keys : List String}
    (held : Owning typed P s) (owned : ∀ v ∈ bindings.map (·.2), s.heap.Owned P v) :
    (owning typed P).course.Leads (scopeReports env bindings keys) s fun y t =>
      y.All (t.heap.Owned P) := by
  have reads : ∀ t, Owning typed P t →
      (owning typed P).course.Leads (environment env) t fun _ _ => True :=
    fun t held => (leads_environment held).weaken fun _ _ _ _ _ => trivial
  have whole : (owning typed P).course.Leads (scopeReports env bindings keys) s fun y _ =>
      ∃ r, y = .report r := by
    refine leads_framed held fun t held gone =>
      leads_scopeBody (C := (owning typed P).course) reads held ?_ ?_
    · intro b mem u held further
      exact leads_bindPlace (.symbol env b.1) held
        ((owned b.2 (List.mem_map_of_mem mem)).changes (gone.trans further))
    · exact fun u held => leads_framed held fun _ held _ => leads_depthOf reads held
  refine whole.weaken ?_
  rintro _ t _ _ ⟨r, rfl⟩
  trivial

theorem leads_callStates {name : String} {args : List Handle} (held : Owning typed P s)
    (owned : ∀ v ∈ args, s.heap.Owned P v) :
    (owning typed P).course.Leads (HostM.callStates name args) s fun y t =>
      y.All (t.heap.Owned P) := by
  have resolved : (owning typed P).course.Leads (resolve name args.length) s fun _ _ => True :=
    Leads.hostLookBind (Leads.hostOfBind held fun _ _ =>
      (leads_onHeap Heap.sound_callable held (by simp)).weaken fun _ _ _ _ _ => trivial)
  refine resolved.bind fun c t held gone _ => ?_
  refine (leads_bindParams held fun v mem => (owned v mem).changes gone).bind
    fun params u held _ _ => ?_
  refine Leads.hostLookBind ?_
  refine (Leads.mapM (R := fun _ _ => True) (fun _ _ _ _ _ => trivial) held fun _ _ _ held _ =>
    Leads.hostLook held trivial).bind fun images w held _ _ => ?_
  exact (leads_popFrame held).bind fun _ _ held _ _ => .pure held trivial

/-- A register may hold what is owned. -/
theorem leads_hold (name : String) {v : Handle} (held : Owning typed P s)
    (owned : s.heap.Owned P v) :
    (owning typed P).course.Leads (HostM.hold name v) s fun _ _ => True := by
  refine leads_change held rfl { held.within with registers := fun p mem => ?_ }
  obtain rfl | mem := Named.mem_put mem
  · exact owned
  · exact held.within.registers p mem

/-- Fewer frames hold on to less. -/
theorem Owning.unwind (held : Owning typed P s) (depth : Nat) : Owning typed P (s.unwind depth) :=
  ⟨held.realm,
    { held.within with frames := fun f mem => held.within.frames f (List.mem_of_mem_drop mem) }⟩

end Steps

/-! ## Watches -/

/-- A watch that lets acts pass or stops them and does nothing else, and that stops all misfits if
heaps are to be homogeneous. -/
def Stops (typed : Prop) (watch : Act → HostM Unit) : Prop := ∀ (act : Act) (s : Host),
  (watch act s = .ok () s ∧ (typed → act.Fits s.heap)) ∨ ∃ e, watch act s = .error e s

/-- Without a watch nothing is stopped. -/
theorem stops_nothing : Stops False fun _ => return () := fun _ _ => .inl ⟨rfl, False.elim⟩

/-- **Ownership is lawful** under a watch that stops what has to be stopped. -/
theorem owning_lawful {typed : Prop} {watch : Act → HostM Unit} (stops : Stops typed watch)
    (P : Handle → Prop) : (owning typed P).Lawful watch := by
  have heapLaw : (owning typed P).HeapLawful := ⟨fun owned gone => owned.changes gone, leads_onHeap⟩
  exact {
    heapLaw with
    found := fun held run => (held.within.scopeOf held.within.frames).lookup run
    overload := fun held run => (held.within.scopeOf held.within.frames).lookupOverload run
    register := fun held found => held.within.registers _ (Named.mem_of_find found)
    aside := owning_aside
    hold := fun held owned => leads_hold _ held owned
    pushHandler := fun held _ => owning_unguarded.leads_pushHandler held
    popHandler := fun held => owning_unguarded.leads_popHandler held
    command := fun c held => leads_act (stops _ _) held fun _ => leads_command c held
    bind := fun place held owned => leads_act (stops _ _) held fun _ =>
      leads_effect (leads_bindPlace place held owned)
    operate := fun op held first second => leads_act (stops _ _) held fun fits =>
      heapLaw.leads_binary op held first second
        (fun _ => leads_overHeap (Heap.leads_assign held.realm first second) held)
        fun position same => by
          subst same
          refine leads_overHeap (Heap.leads_insertAt held.realm first second fun on done => ?_) held
          exact fits on _ rfl done _ (List.mem_singleton_self _)
    setElements := fun held owned taken => leads_act (stops _ _) held fun fits => leads_effect <|
      leads_overHeap (Heap.leads_setElements held.realm owned taken fun on done =>
        fits on _ rfl done) held
    restore := fun before array among gone held owned taken => by
      refine leads_overHeap (Heap.leads_setElements held.realm owned taken
        fun on _ v mem => ?_) held
      refine gone.admits array (before.realm.homogeneous on _ v ?_)
      simpa only [array, Data.parts] using among v mem
    enter := fun held owned => leads_bindParams held owned
    counted := fun held => ⟨⟨held.realm, held.within.congr rfl rfl rfl rfl rfl⟩, fun held gone =>
      ⟨⟨held.realm, held.within.congr rfl rfl rfl rfl rfl⟩, gone, fun _ owned => owned⟩⟩
    unwind := fun _ held gone => ⟨held.unwind _, gone, fun _ owned => owned⟩
    callStates := fun held owned => leads_callStates held owned
    scopes := fun held owned => leads_scopeReports held owned }

end Host

end ScriptHost
