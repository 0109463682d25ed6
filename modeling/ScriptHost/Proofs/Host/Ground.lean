import ScriptHost.Proofs.Host.Owning

/-!
# The ground that a call stands on

A `Ground` is what a call finds in the environment of its host and should leave there: frames at the
bottom of the stack, the number of the base table and bindings in it, and the limit of the stack.
`Host.standing ground` is the regime of hosts that stand on it, with as many calls in progress as
before. A watch that lets only those acts pass that spare the ground makes the regime lawful
(`Host.standing_lawful`); without a ground, no watch is needed.
-/

set_option autoImplicit false

namespace ScriptHost

open HostM Course Regime

/-- What lies below a call in the environment of its host. -/
structure Ground where
  frames : List SymbolTable
  /-- The number of frames there are above these at least. -/
  room : Nat
  limit : Nat
  base : Nat
  bindings : List (Symbol × Handle)

namespace Ground

variable {g : Ground} {s t : Host}

/-- A host that stands on the ground. -/
structure Under (g : Ground) (s : Host) : Prop where
  frames : g.frames <:+ s.env.stack.frames
  room : g.frames.length + g.room ≤ s.env.stack.depth
  limit : s.env.stack.limit = g.limit
  base : s.env.base = g.base
  bindings : g.bindings <:+ (s.base g.base).bindings

/-- The ground with one more frame above it. -/
def raised (g : Ground) : Ground := { g with room := g.room + 1 }

/-- Whether an act leaves the ground in place. -/
def Spared (g : Ground) (s : Host) : Act → Prop
  | .command (.newEnv env _) | .command (.cloneEnv _ env _) => env ≠ .host
  | .command (.popFrame env) =>
    env = .host → g.frames = [] ∧ g.room = 0 ∨ g.frames.length + g.room < s.env.stack.depth
  | .command (.clearEnv .host) => False
  | .command (.clearEnv (.named n)) =>
    g.bindings = [] ∨ ∀ e, Named.find n s.environments = some e → e.base ≠ g.base
  | .bind (.symbol env key) | .bind (.plainSymbol env key) =>
    env = .host → s.scope.Spares g.frames key
  | _ => True

/-- Only the environment and the base tables of a host count. -/
theorem Under.congr (under : g.Under s) (env : t.env = s.env) (bases : t.bases = s.bases) :
    g.Under t := by
  have same : t.base g.base = s.base g.base := by simp only [Host.base, bases]
  exact ⟨env ▸ under.frames, env ▸ under.room, env ▸ under.limit, env ▸ under.base,
    same ▸ under.bindings⟩

/-- A base table may be added. -/
theorem Under.pushBase (under : g.Under s) : g.Under { s with bases := s.bases.push .empty } where
  frames := under.frames
  room := under.room
  limit := under.limit
  base := under.base
  bindings := by
    rw [Host.base_pushBase]
    exact under.bindings

/-- A base table may be replaced if it is another one, or if it keeps its bindings. -/
theorem Under.setBase {i : Nat} {t : SymbolTable} (under : g.Under s)
    (keeps : i = g.base → i < s.bases.size → g.bindings <:+ t.bindings) :
    g.Under { s with bases := s.bases.setIfInBounds i t } where
  frames := under.frames
  room := under.room
  limit := under.limit
  base := under.base
  bindings := by
    rw [Host.base_setBase]
    split
    next same => exact keeps same.1 same.2
    · exact under.bindings

/-- A base table may get more bindings. -/
theorem Under.growBase {i : Nat} {t : SymbolTable} (under : g.Under s)
    (grows : (s.base i).bindings <:+ t.bindings) :
    g.Under { s with bases := s.bases.setIfInBounds i t } :=
  under.setBase fun same _ => (same ▸ under.bindings).trans grows

/-- The stack of the host may be replaced if it keeps the frames and the limit. -/
theorem Under.setStack {k : Stack} (under : g.Under s) (frames : g.frames <:+ k.frames)
    (room : g.frames.length + g.room ≤ k.depth) (limit : k.limit = s.env.stack.limit) :
    g.Under { s with env := { s.env with stack := k } } :=
  ⟨frames, room, limit.trans under.limit, under.base, under.bindings⟩

/-- A raised ground is one to stand on as well. -/
theorem Under.lower (under : g.raised.Under s) : g.Under s :=
  { under with room := (Nat.le_succ _).trans under.room }

/-- A frame above the ground is dropped. -/
theorem Under.pop (under : g.Under s)
    (spared : g.frames = [] ∧ g.room = 0 ∨ g.frames.length + g.room < s.env.stack.depth) :
    g.Under { s with env := { s.env with stack := s.env.stack.pop } } := by
  have depth : s.env.stack.pop.depth = s.env.stack.depth - 1 := by simp [Stack.pop, Stack.depth]
  have room : g.frames.length + g.room ≤ s.env.stack.pop.depth := by
    obtain ⟨none, zero⟩ | room := spared
    · simp [none, zero]
    · omega
  refine under.setStack ?_ room rfl
  have short : g.frames.length ≤ s.env.stack.pop.frames.length := (Nat.le_add_right _ _).trans room
  exact List.suffix_of_suffix_length_le under.frames (List.tail_suffix _) short

/-- The stack is cut down to a depth that leaves room above the ground. -/
theorem Under.unwind {depth : Nat} (under : g.Under s) (room : g.frames.length + g.room ≤ depth) :
    g.Under (s.unwind depth) := by
  have enough : g.frames.length + g.room ≤ (s.env.stack.unwind depth).depth := by
    rw [Stack.depth_unwind]
    exact le_min under.room room
  refine under.setStack ?_ enough rfl
  have short : g.frames.length ≤ (s.env.stack.unwind depth).frames.length :=
    (Nat.le_add_right _ _).trans enough
  exact List.suffix_of_suffix_length_le under.frames (List.drop_suffix _ _) short

/-- Bindings of the ground are in a table that is there. -/
theorem Under.inside (under : g.Under s) (some : g.bindings ≠ []) : g.base < s.bases.size := by
  by_contra outside
  have none : s.base g.base = .empty := by
    simp [Host.base, Array.getElem?_eq_none (Nat.le_of_not_lt outside)]
  have short := under.bindings
  rw [none] at short
  exact some (List.suffix_nil.mp short)

end Ground

namespace Host

/-- Hosts that stand on a ground, if there is one, with the same number of calls in progress;
programs use any values. -/
def standing (ground : Option Ground) : Regime where
  course :=
    { holds := fun s => ∀ g ∈ ground, g.Under s
      goes := fun s t => t.callDepth = s.callDepth
      refl := fun _ => rfl
      trans := fun first second => second.trans first }
  uses _ _ := True

/-- A call that is counted in once is counted out once. -/
theorem callDepth_left {s t : Host} (gone : t.callDepth = s.entered.callDepth) :
    t.left.callDepth = s.callDepth := by
  change t.callDepth - 1 = s.callDepth
  rw [gone]
  rfl

section Steps

variable {ground : Option Ground} {s : Host} {name : EnvName}

/-! ## Environments and tables -/

/-- A change to what neither grounds nor calls depend on. -/
theorem standing_change {f : Host → Host} (held : (standing ground).course.holds s)
    (env : (f s).env = s.env) (bases : (f s).bases = s.bases)
    (calls : (f s).callDepth = s.callDepth) :
    (standing ground).course.Leads (change f) s fun _ _ => True :=
  Leads.change (fun g mem => (held g mem).congr env bases) calls trivial

theorem standing_onHeap {α : Type} (m : HeapM α) (held : (standing ground).course.holds s) :
    (standing ground).course.Leads (onHeap m) s fun _ _ => True :=
  Leads.onAnyHeap m fun _ => ⟨fun g mem => (held g mem).congr rfl rfl, rfl⟩

theorem standing_newEnvironment {limit : Nat} (held : (standing ground).course.holds s) :
    (standing ground).course.Leads (newEnvironment limit) s fun _ _ => True :=
  .of_ok rfl (fun g mem => (held g mem).pushBase) rfl trivial

/-- Environments may be replaced, but not that of the host while it stands on a ground. -/
theorem standing_putEnvironment {e : Environment} (held : (standing ground).course.holds s)
    (other : ∀ g ∈ ground, name ≠ .host) :
    (standing ground).course.Leads (putEnvironment name e) s fun _ _ => True := by
  cases name with
  | host => exact Leads.change (fun g mem => absurd rfl (other g mem)) rfl trivial
  | named n => exact standing_change held rfl rfl rfl

/-- The host's own environment is there; another one may have to be made. -/
theorem standing_environment (held : (standing ground).course.holds s) :
    (standing ground).course.Leads (environment name) s fun e t => name = .host →
      e = s.env ∧ t = s := by
  cases name with
  | host => exact Leads.hostLook held fun _ => ⟨rfl, rfl⟩
  | named n =>
    refine Leads.hostLookBind ?_
    split
    · exact .pure held (by simp)
    · refine (standing_newEnvironment held).bind fun e t held _ _ => ?_
      exact (standing_putEnvironment held (by simp)).bind fun _ _ held _ _ => .pure held (by simp)

theorem standing_scope (held : (standing ground).course.holds s) :
    (standing ground).course.Leads (HostM.scope name) s fun _ _ => True :=
  (standing_environment held).bind fun _ _ held _ _ => Leads.hostLook held trivial

/-- A step over a scope that adds to the base table; over the host's own scope, it has to spare the
ground. -/
theorem standing_onScope (step : ScopeM Unit) (held : (standing ground).course.holds s)
    (grows : ∀ e : Scope, e.base.bindings <:+ (endState step e).base.bindings)
    (own : name = .host →
      ∀ g ∈ ground,
      g.Under { s with env := { s.env with stack := (endState step s.scope).stack } }) :
    (standing ground).course.Leads (onScope name step) s fun a t =>
      name = .host → ∃ u, step s.scope = .ok a u ∧ t.env.stack = u.stack := by
  have store : ∀ (e : Environment) (t : Host) (u : Scope), (standing ground).course.holds t →
      (name = .host → e = s.env ∧ t = s) → endState step (t.scopeOf e) = u →
      (standing ground).course.Leads (do
        change fun s => { s with bases := s.bases.setIfInBounds e.base u.base }
        putEnvironment name { e with stack := u.stack }) t fun _ t => name = .host →
          t.env.stack = u.stack := by
    intro e t u held here left
    have grown : (t.base e.base).bindings <:+ u.base.bindings := left ▸ grows (t.scopeOf e)
    cases name with
    | host =>
      obtain ⟨rfl, rfl⟩ := here rfl
      have left : endState step t.scope = u := left
      rw [left] at own
      exact .of_ok rfl (fun g mem => (own rfl g mem).growBase grown) rfl fun _ => rfl
    | named n =>
      exact .of_ok rfl (fun g mem => ((held g mem).growBase grown).congr rfl rfl) rfl (by simp)
  refine (standing_environment held).bind fun e t held _ here => Leads.hostLookBind ?_
  cases ends : step (t.scopeOf e) with
  | ok a u =>
    have left : endState step (t.scopeOf e) = u := by simp only [endState, ends]
    refine (store e t u held here left).bind fun _ _ held _ stack => .pure held fun own =>
      ⟨u, ?_, stack own⟩
    obtain ⟨rfl, rfl⟩ := here own
    exact ends
  | error f u =>
    have left : endState step (t.scopeOf e) = u := by simp only [endState, ends]
    exact (store e t u held here left).bind fun _ _ held _ _ => Leads.fail held

/-- A frame on top is room above the ground. -/
theorem standing_push {frame : SymbolTable} (held : (standing ground).course.holds s) :
    (standing ground).course.Leads (onScope name (Scope.push frame)) s fun _ t =>
      name = .host → ∀ g ∈ ground, g.raised.Under t := by
  have growth : ∀ {F : List SymbolTable} (e : Scope), F <:+ e.stack.frames →
      (Scope.growing (fun _ => True) F).Leads (Scope.push frame) e fun _ _ => True :=
    fun e above => Scope.leads_push e.within_all above fun _ _ => trivial
  have pushed :=
    standing_onScope (Scope.push frame) held (fun e => (growth e List.nil_suffix).atEnd.2.1)
    fun (_ : name = .host) g mem => by
      have grown := growth s.scope (held g mem).frames
      exact (held g mem).setStack grown.atEnd.1.2 ((held g mem).room.trans grown.atEnd.2.2.2)
        grown.atEnd.2.2.1
  refine pushed.weaken fun _ t heldThen _ top own g mem => ?_
  obtain ⟨u, run, stack⟩ := top own
  have deep : t.env.stack.depth = s.env.stack.depth + 1 := by
    rw [stack, Stack.depth, Scope.frames_of_push run]
    rfl
  have room := (held g mem).room
  exact { heldThen g mem with room := by simp only [Ground.raised]; omega }

/-! ## Clones of environments -/

/-- Bindings are loaded into a base table, which then has more of them. -/
theorem standing_loadBase {source target : Nat} {kind : CloneKind}
    (held : (standing ground).course.holds s) :
    (standing ground).course.Leads (loadBase source target kind) s fun _ _ => True := by
  refine Leads.hostLookBind ((standing_onHeap _ held).bind fun bs t held _ _ =>
    Leads.hostLookBind ?_)
  have load : (SymbolTable.growing fun _ => True).Leads (SymbolTable.load bs) (t.base target)
      fun _ _ => True :=
    SymbolTable.leads_load (fun _ _ => trivial) fun _ _ => trivial
  have grown := load.atEnd.2
  have store : ∀ u : SymbolTable, (t.base target).bindings <:+ u.bindings →
      (standing ground).course.Leads
      (change fun s => { s with bases := s.bases.setIfInBounds target u }) t fun _ _ => True :=
    fun u grown => Leads.change (fun g mem => (held g mem).growBase grown) rfl trivial
  cases ends : SymbolTable.load bs (t.base target) with
  | ok a u =>
    simp only [endState, ends] at grown
    exact store u grown
  | error f u =>
    simp only [endState, ends] at grown
    exact (store u grown).bind fun _ _ held _ _ => Leads.fail held

/-- A clone is loaded on top of what is there. -/
theorem standing_loadInto {source : Environment} {kind : CloneKind}
    (held : (standing ground).course.holds s) :
    (standing ground).course.Leads (loadInto source name kind) s fun _ _ => True := by
  refine (standing_environment held).bind fun e t held _ _ =>
    (standing_loadBase held).bind fun _ u held _ _ => ?_
  refine Leads.forM held fun frame _ w held _ =>
    (standing_onHeap _ held).bind fun copy x held _ _ => ?_
  exact (standing_push held).weaken fun _ _ _ _ _ => trivial

/-- Clones are put elsewhere. -/
theorem standing_cloneInto {source : Environment} {kind : CloneKind}
    (held : (standing ground).course.holds s) (other : ∀ g ∈ ground, name ≠ .host) :
    (standing ground).course.Leads (cloneInto source name kind) s fun _ _ => True := by
  have load : (standing ground).course.Leads (do
      putEnvironment name (← newEnvironment source.stack.limit)
      loadInto source name kind) s fun _ _ => True :=
    (standing_newEnvironment held).bind fun _ _ held _ _ =>
      (standing_putEnvironment held other).bind fun _ _ held _ _ => standing_loadInto held
  cases kind with
  | minimal =>
    refine (standing_putEnvironment held other).bind fun _ t held _ _ => ?_
    exact (standing_push held).weaken fun _ _ _ _ _ => trivial
  | shallow => exact load
  | deep => exact load

/-- Dropping a frame of the host's own stack takes room above the ground. -/
theorem standing_popFrame (held : (standing ground).course.holds s)
    (spared : ∀ g ∈ ground, g.Spared s (.command (.popFrame name))) :
    (standing ground).course.Leads (popFrame name) s fun _ _ => True := by
  refine (standing_environment held).bind fun e t held _ here => ?_
  have put : (standing ground).course.Leads (putEnvironment name { e with stack := e.stack.pop }) t
      fun _ _ => True := by
    cases name with
    | named n => exact standing_putEnvironment held (by simp)
    | host =>
      obtain ⟨rfl, rfl⟩ := here rfl
      exact Leads.change (fun g mem => (held g mem).pop (spared g mem rfl)) rfl trivial
  exact put.bind fun _ _ held _ _ => .pure held trivial

/-- Emptying another environment does no harm unless it shares the base table. -/
theorem standing_clearScope (held : (standing ground).course.holds s)
    (spared : ∀ g ∈ ground, g.Spared s (.command (.clearEnv name))) :
    (standing ground).course.Leads (clearScope name) s fun _ _ => True := by
  cases name with
  | host => exact .of_ok rfl (fun g mem => (spared g mem).elim) rfl trivial
  | named n =>
    have apart : (standing ground).course.Leads (environment (.named n)) s fun e _ =>
        ∀ g ∈ ground, g.bindings = [] ∨ e.base ≠ g.base := by
      refine Leads.hostLookBind ?_
      cases found : Named.find n s.environments with
      | some e => exact .pure held fun g mem => (spared g mem).imp_right fun other => other e found
      | none =>
        refine .of_ok rfl (fun g mem => (held g mem).pushBase.congr rfl rfl) rfl fun g mem => ?_
        exact or_iff_not_imp_left.mpr fun some => ((held g mem).inside some).ne'
    refine apart.bind fun e t held _ apart => ?_
    refine .of_ok rfl (fun g mem =>
      Ground.Under.congr ((held g mem).setBase (i := e.base) (t := .empty) ?_) rfl rfl) rfl trivial
    intro same _
    obtain none | other := apart g mem
    · simp [none]
    · exact absurd same other

/-! ## Acts -/

theorem standing_aside : (standing ground).course.Aside :=
  fun _ _ _ held => ⟨fun g mem => (held g mem).congr rfl rfl, rfl⟩

theorem standing_unguarded : (standing ground).course.Unguarded := fun _ _ _ held =>
  ⟨fun g mem => (held g mem).congr rfl rfl, rfl⟩

theorem standing_table {table : String} (held : (standing ground).course.holds s) :
    (standing ground).course.Leads (HostM.table table) s fun _ _ => True :=
  Leads.hostLook held trivial

theorem standing_putTable {table : String} {t : SymbolTable}
    (held : (standing ground).course.holds s) :
    (standing ground).course.Leads (putTable table t) s fun _ _ => True :=
  standing_change held rfl rfl rfl

/-- Tables outside of the environments may change as they like. -/
theorem standing_onTable {table : String} {step : TableM Unit}
    (held : (standing ground).course.holds s) :
    (standing ground).course.Leads (onTable table step) s fun _ _ => True := by
  refine Leads.hostLookBind ?_
  split
  · exact standing_putTable held
  · exact (standing_putTable held).bind fun _ _ held _ _ => Leads.fail held

/-- What is bound under a key of the host's own environment goes into the base table or into a frame
above the ground. -/
theorem standing_bind (key : String) {step : ScopeM Unit} (held : (standing ground).course.holds s)
    (growth : ∀ {F : List SymbolTable} (e : Scope), F <:+ e.stack.frames → e.Spares F key →
      (Scope.growing (fun _ => True) F).Leads step e fun _ _ => True)
    (spared : name = .host → ∀ g ∈ ground, s.scope.Spares g.frames key) :
    (standing ground).course.Leads (onScope name step) s fun _ _ => True := by
  refine (standing_onScope step held (fun e => (growth e List.nil_suffix (.inl rfl)).atEnd.2.1)
    fun own g mem => ?_).weaken fun _ _ _ _ _ => trivial
  have grown := growth s.scope (held g mem).frames (spared own g mem)
  exact (held g mem).setStack grown.atEnd.1.2 ((held g mem).room.trans grown.atEnd.2.2.2)
    grown.atEnd.2.2.1

/-- A binding spares the ground, or is made elsewhere. -/
theorem standing_bindPlace {v : Handle} (place : Place) (held : (standing ground).course.holds s)
    (spared : ∀ g ∈ ground, g.Spared s (.bind place)) :
    (standing ground).course.Leads (place.bind v) s fun _ _ => True := by
  cases place with
  | symbol env key =>
    refine Leads.hostHeapLookBind (standing_bind key held (fun e above room => ?_) fun own g mem =>
      spared g mem own)
    exact Scope.leads_insert e.within_all above room trivial
  | plainSymbol env key =>
    refine standing_bind key held (fun e above room => ?_) fun own g mem => spared g mem own
    exact Scope.leads_insertPlain e.within_all above room trivial
  | tableSymbol table key => exact Leads.hostHeapLookBind (standing_onTable held)
  | tablePlain table key => exact standing_onTable held
  | handler kind => exact standing_unguarded.leads_pushHandler held

/-- Operations on values change nothing but the heap. -/
theorem standing_operate {a b : Handle} (op : Binary) (held : (standing ground).course.holds s) :
    (standing ground).course.Leads (op.perform a b) s fun _ _ => True := by
  cases op with
  | exactlyEqual | alike | reaches => exact Leads.hostLookBind (.pure held trivial)
  | same => exact .pure held trivial
  | _ => exact (standing_onHeap _ held).bind fun _ _ held _ _ => .pure held trivial

/-- **Commands** that spare the ground leave it in place. -/
theorem standing_command (c : Command) (held : (standing ground).course.holds s)
    (spared : ∀ g ∈ ground, g.Spared s (.command c)) :
    (standing ground).course.Leads c.perform s fun _ _ => True := by
  have about : ∀ {name : EnvName} {f : Scope → Report},
      (standing ground).course.Leads (scopeReport name f) s fun _ _ => True :=
    (standing_scope held).bind fun _ _ held _ _ => .pure held trivial
  have done : ∀ {step : HostM Unit}, (standing ground).course.Leads step s (fun _ _ => True) →
      (standing ground).course.Leads (effect step) s fun _ _ => True :=
    fun step => step.bind fun _ _ held _ _ => .pure held trivial
  have pushed : ∀ {t : Host} {name : EnvName} {frame : SymbolTable},
      (standing ground).course.holds t →
      (standing ground).course.Leads (onScope name (Scope.push frame)) t fun _ _ => True :=
    fun held => (standing_push held).weaken fun _ _ _ _ _ => trivial
  cases c with
  | callDepth | isInterrupted | handlersDepth _ | handlersSnapshot _ | settings =>
    exact Leads.hostLookBind (.pure held trivial)
  | symbolExists _ _ | envStats _ | baseKeys _ | listing _ | histogram _ => exact about
  | draw d =>
    exact (standing_aside.leads_perform d (fun _ _ => True) held).weaken fun _ _ _ _ _ => trivial
  | param name =>
    have found : (standing ground).course.Leads (HostM.param name) s fun _ _ => True :=
      Leads.hostLookBind (Leads.hostOf held fun _ _ => trivial)
    exact found.bind fun _ _ held _ _ => .pure held trivial
  | interrupt | resetInterrupt | handlersClear =>
    exact done (Leads.change (fun g mem => (held g mem).congr rfl rfl) rfl trivial)
  | handlersPop kind =>
    exact (standing_unguarded.leads_popHandler held).bind fun _ _ held _ _ => .pure held trivial
  | newEnv env limit =>
    exact done ((standing_newEnvironment held).bind fun _ _ held _ _ =>
      standing_putEnvironment held spared)
  | pushFrame env => exact done (pushed held)
  | popFrame env =>
    exact (standing_popFrame held spared).bind fun _ _ held _ _ => .pure held trivial
  | pushTable env name =>
    refine done ((standing_table held).bind fun frame t held _ _ => ?_)
    exact (standing_change held rfl rfl rfl).bind fun _ _ held _ _ => pushed held
  | lookup _ _ | lookupOverload _ _ _ =>
    exact (standing_scope held).bind fun _ _ held _ _ => Leads.hostOfBind held fun _ _ =>
      .pure held trivial
  | clearEnv env => exact done (standing_clearScope held spared)
  | cloneEnv source target kind =>
    exact done ((standing_environment held).bind fun _ _ held _ _ => standing_cloneInto held spared)
  | loadEnv source target kind =>
    exact done ((standing_environment held).bind fun _ _ held _ _ => standing_loadInto held)
  | sharesBase a b =>
    have shared : (standing ground).course.Leads (HostM.sharesBase a b) s fun _ _ => True :=
      (standing_environment held).bind fun _ _ held _ _ =>
        (standing_environment held).bind fun _ _ held _ _ => .pure held trivial
    exact shared.bind fun _ _ held _ _ => .pure held trivial
  | newTable name | clearTable name => exact done (standing_putTable held)
  | tableGet _ _ | tableOverload _ _ _ | tableContains _ _ | tableKeys _ =>
    exact (standing_table held).bind fun _ _ held _ _ => .pure held trivial
  | duplicateTable source target kind =>
    refine done ((standing_table held).bind fun t u held _ _ => ?_)
    exact (standing_onHeap _ held).bind fun _ _ held _ _ => standing_putTable held
  | loadTable source target kind =>
    refine done ((standing_table held).bind fun t u held _ _ => ?_)
    exact (standing_onHeap _ held).bind fun _ _ held _ _ => standing_onTable held

/-! ## Frames of calls -/

/-- The parameters are bound in a frame above the ground. -/
theorem standing_bindParams {c : Callable} {args : List Handle}
    (held : (standing ground).course.holds s) :
    (standing ground).course.Leads (bindParams c args) s fun _ t =>
      ∀ g ∈ ground, g.raised.Under t := by
  refine (Course.leads_bindings (fun m _ held => standing_onHeap m held) held).bind
    fun bs t held _ _ => ?_
  refine (Course.leads_frame held).bind fun f u held _ _ => ?_
  exact (standing_push held).bind fun _ _ held _ raised => .pure held (raised rfl)

/-- A host with one more frame above the ground. -/
theorem standing_raised :
    (standing (ground.map Ground.raised)).course.holds s ↔ ∀ g ∈ ground, g.raised.Under s := by
  simp [standing]

/-- A frame above the ground of the host can be dropped. -/
theorem standing_drop (raised : ∀ g ∈ ground, g.raised.Under s) :
    (standing ground).course.Leads (popFrame .host) s fun _ _ => True :=
  standing_popFrame (fun g mem => (raised g mem).lower) fun g mem _ => .inr (raised g mem).room

/-- What a call binds can be looked at, and is dropped again. -/
theorem standing_callStates {callee : String} {args : List Handle}
    (held : (standing ground).course.holds s) :
    (standing ground).course.Leads (HostM.callStates callee args) s fun _ _ => True := by
  have resolved : (standing ground).course.Leads (resolve callee args.length) s fun _ _ => True :=
    Leads.hostLookBind (Leads.hostOfBind held fun _ _ => standing_onHeap _ held)
  refine resolved.bind fun c t held _ _ =>
    (standing_bindParams held).bind fun params u held _ raised => ?_
  refine Leads.hostLookBind ?_
  -- the images are only looked at, so that the frame of the call is still there to be dropped
  have images : (standing (ground.map Ground.raised)).course.Leads (params.mapM imageOf) u
      fun _ _ => True :=
    (Leads.mapM (R := fun _ _ => True) (fun _ _ _ _ _ => trivial) (standing_raised.mpr raised)
      fun _ _ _ held _ => Leads.hostLook held trivial).weaken fun _ _ _ _ _ => trivial
  have lower : ∀ w : Host, (standing (ground.map Ground.raised)).course.holds w →
      w.callDepth = u.callDepth → (standing ground).course.holds w ∧ w.callDepth = u.callDepth :=
    fun w raised gone => ⟨fun g mem => (standing_raised.mp raised g mem).lower, gone⟩
  refine (images.narrow lower).bind fun images w _ _ raised => ?_
  exact (standing_drop (standing_raised.mp raised.2)).bind fun _ _ held _ _ => .pure held trivial

/-- What a step inside of a frame stands on. -/
def above : EnvName → Option Ground → Option Ground
  | .host, ground => ground.map Ground.raised
  | .named _, ground => ground

/-- What is done inside a frame is done above the ground, and the frame is dropped in the end. -/
theorem standing_framed {α : Type} {step : HostM α} (held : (standing ground).course.holds s)
    (inner : ∀ t, (standing (above name ground)).course.holds t →
      (standing (above name ground)).course.Leads step t fun _ _ => True) :
    (standing ground).course.Leads (framed name step) s fun _ _ => True := by
  have push : (standing ground).course.Leads (onScope name (Scope.push .empty)) s fun _ t =>
      (standing (above name ground)).course.holds t := by
    refine (standing_push held).weaken fun _ t held _ raised => ?_
    cases name with
    | host => exact standing_raised.mpr (raised rfl)
    | named n => exact held
  refine Course.leads_framed push (fun t held _ => inner t held) fun t u gone held further => ?_
  have pop : (standing ground).course.Leads (popFrame name) u fun _ _ => True := by
    cases name with
    | host => exact standing_drop (standing_raised.mp held)
    | named n => exact standing_popFrame held fun _ _ => by simp [Ground.Spared]
  exact ⟨pop.atEnd.1, pop.atEnd.2.trans (further.trans gone)⟩

/-- Reports of what a scope finds are made inside of a frame. -/
theorem standing_scopeReports {bindings : List (String × Handle)} {keys : List String}
    (held : (standing ground).course.holds s) :
    (standing ground).course.Leads (scopeReports name bindings keys) s fun _ _ => True := by
  have reads : ∀ {ground : Option Ground} (t : Host), (standing ground).course.holds t →
      (standing ground).course.Leads (environment name) t fun _ _ => True :=
    fun t held => (standing_environment held).weaken fun _ _ _ _ _ => trivial
  refine standing_framed held fun t held => ?_
  refine (leads_scopeBody (C := (standing (above name ground)).course) reads held ?_ ?_).weaken
    fun _ _ _ _ _ => trivial
  · intro b _ u held _
    refine standing_bindPlace (.symbol name b.1) held fun g mem own => .inr (.inr ?_)
    subst own
    obtain ⟨low, _, rfl⟩ := Option.mem_map.mp mem
    have room : low.frames.length + (low.room + 1) ≤ u.scope.stack.depth := (held _ mem).room
    exact (Nat.lt_add_of_pos_right (Nat.succ_pos _)).trans_le room
  · exact fun u held => standing_framed held fun _ held => leads_depthOf reads held

end Steps

/-- A watch that lets an act pass only if it spares the ground, and does nothing else. -/
def Guards (watch : Act → HostM Unit) (ground : Option Ground) : Prop := ∀ (act : Act) (s : Host),
  (watch act s = .ok () s ∧ ∀ g ∈ ground, g.Under s → g.Spared s act) ∨
  ∃ e, watch act s = .error e s

/-- **Hosts stay on their ground** under a watch that guards it. -/
theorem standing_lawful {ground : Option Ground} {watch : Act → HostM Unit}
    (guards : Guards watch ground) : (standing ground).Lawful watch := by
  have plain : ∀ {s : Host} {step : HostM Yield},
      (standing ground).course.Leads step s (fun _ _ => True) →
      (standing ground).course.Leads step s fun y t => y.All ((standing ground).uses t) :=
    fun leads => leads.weaken fun y _ _ _ _ => by cases y <;> trivial
  -- an act is carried out if the watch lets it pass, and then it spares the ground
  have watched : ∀ {s : Host} {act : Act} {step : HostM Yield}, (standing ground).course.holds s →
      ((∀ g ∈ ground, g.Spared s act) → (standing ground).course.Leads step s fun _ _ => True) →
      (standing ground).course.Leads (do watch act; step) s fun y t =>
        y.All ((standing ground).uses t) :=
    fun held leads => leads_act (guards _ _) held fun spares =>
      plain (leads fun g mem => spares g mem (held g mem))
  exact {
    lasts := fun _ _ => trivial
    heap := fun _ held _ => (standing_onHeap _ held).weaken fun _ _ _ _ _ _ _ => trivial
    found := fun _ _ => trivial
    overload := fun _ _ => trivial
    register := fun _ _ => trivial
    aside := standing_aside
    hold := fun held _ => standing_change held rfl rfl rfl
    pushHandler := fun held _ => standing_unguarded.leads_pushHandler held
    popHandler := fun held => standing_unguarded.leads_popHandler held
    command := fun c held => watched held fun spared => standing_command c held spared
    bind := fun place held _ => watched held fun spared =>
      (standing_bindPlace place held spared).bind fun _ _ held _ _ => .pure held trivial
    operate := fun op held _ _ => watched held fun _ => standing_operate op held
    setElements := fun held _ _ => watched held fun _ =>
      (standing_onHeap _ held).bind fun _ _ held _ _ => .pure held trivial
    restore := fun _ _ _ _ held _ _ => standing_onHeap _ held
    enter := fun held _ => (standing_bindParams held).weaken fun _ _ _ _ _ => trivial
    counted := fun held => ⟨fun g mem => (held g mem).congr rfl rfl, fun held gone =>
      ⟨fun g mem => (held g mem).congr rfl rfl, callDepth_left gone, fun _ _ => trivial⟩⟩
    unwind := fun before held gone =>
      ⟨fun g mem => (held g mem).unwind (before g mem).room, gone, fun _ _ => trivial⟩
    callStates := fun held _ => plain (standing_callStates held)
    scopes := fun held _ => plain (standing_scopeReports held) }

end Host

end ScriptHost
