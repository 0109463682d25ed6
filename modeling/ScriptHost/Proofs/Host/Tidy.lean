import ScriptHost.Proofs.Host.Watched
import ScriptHost.Proofs.Scope.Tidy

/-!
# Tidy hosts

A host is tidy if all its tables and stacks are: those of its own environment, of the environments
by name, and the tables by name. Every evaluation keeps a host tidy, whatever the program
(`Host.tidy_lawful`), so every reachable host is tidy (`Reachable.tidy`): its tables bind each
symbol once, its stacks keep to their limits, and what stands under an overload symbol is an
executable.

That it is an executable with that overload can be lost by an assignment, and by nothing else: a
host stays strictly tidy under a watch that lets no such assignment pass.
-/

set_option autoImplicit false

namespace ScriptHost

open HostM Course Regime

/-- The base table is one of so many, and the stack is tidy. -/
structure Environment.Tidy (strict : Prop) (h : Heap) (bases : Nat) (e : Environment) : Prop where
  base : e.base < bases
  stack : e.stack.Tidy strict h

/-- What a tidy environment binds is still there later on, and so are its base tables. -/
theorem Environment.Tidy.lasts {strict : Prop} {h h' : Heap} {m n : Nat} {e : Environment}
    (tidy : e.Tidy strict h m) (gone : (Heap.lasting strict).goes h h') (more : m ≤ n) :
    e.Tidy strict h' n :=
  ⟨tidy.base.trans_le more, tidy.stack.lasts gone⟩

namespace Host

/-- All tables and all environments of a host are tidy. -/
structure Tidy (strict : Prop) (s : Host) : Prop where
  bases : ∀ i, (s.base i).Tidy strict s.heap
  env : s.env.Tidy strict s.heap s.bases.size
  environments : ∀ p ∈ s.environments, p.2.Tidy strict s.heap s.bases.size
  tables : ∀ p ∈ s.tables, p.2.Tidy strict s.heap

/-- Tidy hosts in which executables last, and no base table is taken away. -/
def tidying (strict : Prop) : Course Host where
  holds := Tidy strict
  goes s t := (Heap.lasting strict).goes s.heap t.heap ∧ s.bases.size ≤ t.bases.size
  refl s := ⟨(Heap.lasting strict).refl s.heap, le_rfl⟩
  trans first second := ⟨(Heap.lasting strict).trans first.1 second.1, first.2.trans second.2⟩

section Steps

variable {strict : Prop} {s t : Host} {v : Handle}

/-- What is found through a tidy environment is bound in a tidy way. -/
theorem Tidy.scopeOf {e : Environment} (tidy : s.Tidy strict)
    (own : e.Tidy strict s.heap s.bases.size) : (s.scopeOf e).Tidy strict s.heap :=
  ⟨tidy.bases e.base, own.stack⟩

/-- A base table may be replaced by a tidy one. -/
theorem Tidy.setBase {i : Nat} {t : SymbolTable} (tidy : s.Tidy strict)
    (table : t.Tidy strict s.heap) : { s with bases := s.bases.setIfInBounds i t }.Tidy strict where
  bases j := by
    rw [base_setBase]
    split
    · exact table
    · exact tidy.bases j
  env := by simpa using tidy.env
  environments := by simpa using tidy.environments
  tables := tidy.tables

theorem Tidy.pushBase (tidy : s.Tidy strict) :
    { s with bases := s.bases.push .empty }.Tidy strict where
  bases j := by
    rw [base_pushBase]
    exact tidy.bases j
  env := tidy.env.lasts ((Heap.lasting strict).refl _) (by simp)
  environments p mem := (tidy.environments p mem).lasts ((Heap.lasting strict).refl _) (by simp)
  tables := tidy.tables

/-- A host stays tidy when its heap goes on: executables keep their arities. -/
theorem Tidy.setHeap {h : Heap} (tidy : s.Tidy strict)
    (gone : (Heap.lasting strict).goes s.heap h) : { s with heap := h }.Tidy strict where
  bases i := (tidy.bases i).lasts gone
  env := tidy.env.lasts gone le_rfl
  environments p mem := (tidy.environments p mem).lasts gone le_rfl
  tables p mem := (tidy.tables p mem).lasts gone

/-! ## Environments and tables -/

/-- A step over the heap in which executables last. -/
theorem tidy_overHeap {α : Type} {m : HeapM α} {Q : α → Heap → Prop}
    (leads : (Heap.lasting strict).Leads m s.heap Q) (held : s.Tidy strict) :
    (tidying strict).Leads (onHeap m) s fun a t => Q a t.heap :=
  Leads.onHeap leads fun _ _ gone => ⟨held.setHeap gone, gone, le_rfl⟩

/-- Operations on values let executables last, so they leave every table tidy. -/
theorem tidy_onHeap {α : Type} (m : HeapM α) [m.Lasting] (held : s.Tidy strict) :
    (tidying strict).Leads (onHeap m) s fun _ _ => True :=
  (tidy_overHeap (Heap.lasts m s.heap) held).weaken fun _ _ _ _ _ => trivial

/-- A new environment binds nothing, in a base table of its own. -/
theorem tidy_newEnvironment {limit : Nat} (held : s.Tidy strict) :
    (tidying strict).Leads (newEnvironment limit) s fun e t => e.Tidy strict t.heap t.bases.size ∧
      t.heap = s.heap := by
  refine .of_ok rfl held.pushBase ⟨(Heap.lasting strict).refl _, ?_⟩
    ⟨⟨?_, Stack.tidy_empty limit⟩, rfl⟩
  all_goals simp

/-- A tidy environment may be put in the place of any other. -/
theorem tidy_putEnvironment {name : EnvName} {e : Environment} (held : s.Tidy strict)
    (tidy : e.Tidy strict s.heap s.bases.size) :
    (tidying strict).Leads (putEnvironment name e) s fun _ t => t.heap = s.heap ∧
      t.bases = s.bases := by
  cases name with
  | host => exact .of_ok rfl { held with env := tidy } ((tidying strict).refl s) ⟨rfl, rfl⟩
  | named n =>
    refine .of_ok rfl { held with environments := fun p mem => ?_ }
      ((tidying strict).refl s) ⟨rfl, rfl⟩
    obtain rfl | mem := Named.mem_put mem
    · exact tidy
    · exact held.environments p mem

/-- The environments of a tidy host are tidy. -/
theorem tidy_environment {name : EnvName} (held : s.Tidy strict) :
    (tidying strict).Leads (environment name) s fun e t => e.Tidy strict t.heap t.bases.size ∧
      t.heap = s.heap := by
  cases name with
  | host => exact Leads.hostLook held ⟨held.env, rfl⟩
  | named n =>
    refine Leads.hostLookBind ?_
    cases found : Named.find n s.environments with
    | some e => exact .pure held ⟨held.environments _ (Named.mem_of_find found), rfl⟩
    | none =>
      refine (tidy_newEnvironment held).bind fun e t held _ ⟨tidy, same⟩ => ?_
      refine (tidy_putEnvironment held tidy).bind fun _ u held _ ⟨heap, bases⟩ => .pure held ?_
      rw [heap, bases]
      exact ⟨tidy, same⟩

theorem tidy_scope {name : EnvName} (held : s.Tidy strict) :
    (tidying strict).Leads (HostM.scope name) s fun _ _ => True :=
  (tidy_environment held).bind fun _ _ held _ _ => Leads.hostLook held trivial

/-- A step that keeps a scope tidy. -/
theorem tidy_onScope {name : EnvName} {step : ScopeM Unit} (held : s.Tidy strict)
    (steps : ∀ e : Scope, e.Tidy strict s.heap → (endState step e).Tidy strict s.heap) :
    (tidying strict).Leads (onScope name step) s fun _ _ => True := by
  refine (tidy_environment held).bind fun e t held _ ⟨tidy, same⟩ => Leads.hostLookBind ?_
  rw [← same] at steps
  have kept := steps (t.scopeOf e) (held.scopeOf tidy)
  have store : ∀ u : Scope, u.Tidy strict t.heap → (tidying strict).Leads (do
      change fun s => { s with bases := s.bases.setIfInBounds e.base u.base }
      putEnvironment name { e with stack := u.stack }) t fun _ _ => True := by
    intro u kept
    have inside : Environment.Tidy strict t.heap (t.bases.setIfInBounds e.base u.base).size
        { e with stack := u.stack } :=
      ⟨by simpa using tidy.base, kept.stack⟩
    have put : (tidying strict).Leads (putEnvironment name { e with stack := u.stack })
        { t with bases := t.bases.setIfInBounds e.base u.base } fun _ _ => True :=
      (tidy_putEnvironment (held.setBase kept.base) inside).weaken fun _ _ _ _ _ => trivial
    exact put.continued rfl ⟨(Heap.lasting strict).refl _, by simp⟩
  cases ends : step (t.scopeOf e) with
  | ok a u =>
    simp only [endState, ends] at kept
    exact (store u kept).bind fun _ _ held _ _ => .pure held trivial
  | error f u =>
    simp only [endState, ends] at kept
    exact (store u kept).bind fun _ _ held _ _ => Leads.fail held

/-- So are the tables that a program keeps. -/
theorem tidy_table (name : String) (held : s.Tidy strict) :
    (tidying strict).Leads (table name) s fun t u => t.Tidy strict s.heap ∧ u.heap = s.heap := by
  refine Leads.hostLook held ⟨?_, rfl⟩
  cases found : Named.find name s.tables with
  | some t => exact held.tables _ (Named.mem_of_find found)
  | none => exact SymbolTable.tidy_empty

theorem tidy_putTable {name : String} {t : SymbolTable} (held : s.Tidy strict)
    (tidy : t.Tidy strict s.heap) : (tidying strict).Leads (putTable name t) s fun _ _ => True := by
  refine Leads.change { held with tables := fun p mem => ?_ } ((tidying strict).refl s) trivial
  obtain rfl | mem := Named.mem_put mem
  · exact tidy
  · exact held.tables p mem

/-- A step on a table that leaves tidy tables tidy. -/
theorem tidy_onTable {name : String} {step : TableM Unit} (held : s.Tidy strict)
    (steps : ∀ t : SymbolTable, t.Tidy strict s.heap → (endState step t).Tidy strict s.heap) :
    (tidying strict).Leads (onTable name step) s fun _ _ => True := by
  have tidy := ((tidy_table name held).ok (t := s) rfl).2.2.1
  have kept := steps _ tidy
  refine Leads.hostLookBind ?_
  cases ends : step ((Named.find name s.tables).getD .empty) with
  | ok a u =>
    simp only [endState, ends] at kept
    exact tidy_putTable held kept
  | error f u =>
    simp only [endState, ends] at kept
    exact (tidy_putTable held kept).bind fun _ _ held _ _ => Leads.fail held

/-! ## Clones of environments -/

/-- To load a base table binds what the other one binds, symbol by symbol, under the same
arities. -/
theorem tidy_loadBase {source target : Nat} {kind : CloneKind} (held : s.Tidy strict) :
    (tidying strict).Leads (loadBase source target kind) s fun _ _ => True := by
  refine Leads.hostLookBind ((tidy_overHeap (held.bases source).cloned held).bind
    fun bs t held _ tidy => ?_)
  refine Leads.hostLookBind ?_
  have kept := (held.bases target).load tidy.answered
  have store : ∀ u : SymbolTable, u.Tidy strict t.heap → (tidying strict).Leads
      (change fun s => { s with bases := s.bases.setIfInBounds target u }) t fun _ _ => True :=
    fun u kept => Leads.change (held.setBase kept) ⟨(Heap.lasting strict).refl _, by simp⟩ trivial
  cases ends : SymbolTable.load bs (t.base target) with
  | ok a u =>
    simp only [endState, ends] at kept
    exact store u kept
  | error f u =>
    simp only [endState, ends] at kept
    exact (store u kept).bind fun _ _ held _ _ => Leads.fail held

theorem tidy_pushFrame {name : EnvName} {frame : SymbolTable} (held : s.Tidy strict)
    (tidy : frame.Tidy strict s.heap) :
    (tidying strict).Leads (onScope name (Scope.push frame)) s fun _ _ => True :=
  tidy_onScope held fun _ scope => scope.push tidy

/-- An environment is loaded with the base table of another one and with its frames. -/
theorem tidy_loadInto {source : Environment} {name : EnvName} {kind : CloneKind}
    (held : s.Tidy strict) (tidy : source.Tidy strict s.heap s.bases.size) :
    (tidying strict).Leads (loadInto source name kind) s fun _ _ => True := by
  refine (tidy_environment held).bind fun e t held one _ =>
    (tidy_loadBase held).bind fun _ u held two _ => ?_
  refine Leads.forM held fun frame mem w held three => ?_
  have gone := (tidying strict).trans one ((tidying strict).trans two three)
  have known := (tidy.stack.frames frame (by simpa using mem)).lasts gone.1
  exact (tidy_overHeap known.duplicate held).bind fun copy x held _ tidy => tidy_pushFrame held tidy

/-- A clone binds the same symbols as its source, to the same values or to copies with the same
arities. -/
theorem tidy_cloneInto {source : Environment} {name : EnvName} {kind : CloneKind}
    (held : s.Tidy strict) (tidy : source.Tidy strict s.heap s.bases.size) :
    (tidying strict).Leads (cloneInto source name kind) s fun _ _ => True := by
  have load : (tidying strict).Leads (do
      putEnvironment name (← newEnvironment source.stack.limit)
      loadInto source name kind) s fun _ _ => True := by
    refine (tidy_newEnvironment held).bind fun e t held one new => ?_
    refine (tidy_putEnvironment held new.1).bind fun _ u held two _ => tidy_loadInto held ?_
    have gone := (tidying strict).trans one two
    exact tidy.lasts gone.1 gone.2
  cases kind with
  | minimal =>
    have least : Environment.Tidy strict s.heap s.bases.size
        ⟨source.base, .empty source.stack.limit⟩ :=
      ⟨tidy.base, Stack.tidy_empty _⟩
    exact (tidy_putEnvironment held least).bind fun _ t held _ _ =>
      tidy_pushFrame held SymbolTable.tidy_empty
  | shallow => exact load
  | deep => exact load

theorem tidy_popFrame {name : EnvName} (held : s.Tidy strict) :
    (tidying strict).Leads (popFrame name) s fun _ _ => True := by
  refine (tidy_environment held).bind fun e t held _ ⟨tidy, _⟩ => ?_
  have popped : Environment.Tidy strict t.heap t.bases.size { e with stack := e.stack.pop } :=
    ⟨tidy.base, tidy.stack.pop⟩
  exact (tidy_putEnvironment held popped).bind fun _ _ held _ _ => .pure held trivial

theorem tidy_clearScope {name : EnvName} (held : s.Tidy strict) :
    (tidying strict).Leads (clearScope name) s fun _ _ => True :=
  tidy_onScope held fun _ scope => scope.clear

/-! ## Acts -/

/-- Bindings have nothing to do with the random stream and with the log. -/
theorem tidy_aside : (tidying strict).Aside := fun s _ _ held =>
  ⟨⟨held.bases, held.env, held.environments, held.tables⟩, (tidying strict).refl s⟩

/-- Nor with the handlers. -/
theorem tidy_unguarded : (tidying strict).Unguarded := fun s _ _ held =>
  ⟨⟨held.bases, held.env, held.environments, held.tables⟩, (tidying strict).refl s⟩

/-- A binding puts one value under a name, or under the name and each arity that the value has. -/
theorem tidy_bindPlace (place : Place) (held : s.Tidy strict) :
    (tidying strict).Leads (place.bind v) s fun _ _ => True := by
  cases place with
  | symbol env key => exact Leads.hostHeapLookBind (tidy_onScope held fun _ scope => scope.insert)
  | plainSymbol env key => exact tidy_onScope held fun _ scope => scope.insertPlain
  | tableSymbol table key =>
    exact Leads.hostHeapLookBind (tidy_onTable held fun _ table => table.bindAll)
  | tablePlain table key => exact tidy_onTable held fun _ table => table.bind trivial
  | handler kind => exact tidy_unguarded.leads_pushHandler held

/-- **Commands** leave a tidy host tidy. -/
theorem tidy_command (c : Command) (held : s.Tidy strict) :
    (tidying strict).Leads c.perform s fun _ _ => True := by
  have about : ∀ {name : EnvName} {f : Scope → Report},
      (tidying strict).Leads (scopeReport name f) s fun _ _ => True :=
    (tidy_scope held).bind fun _ _ held _ _ => .pure held trivial
  have done : ∀ {step : HostM Unit}, (tidying strict).Leads step s (fun _ _ => True) →
      (tidying strict).Leads (effect step) s fun _ _ => True :=
    fun step => step.bind fun _ _ held _ _ => .pure held trivial
  cases c with
  | callDepth | isInterrupted | handlersDepth _ | handlersSnapshot _ | settings =>
    exact Leads.hostLookBind (.pure held trivial)
  | symbolExists _ _ | envStats _ | baseKeys _ | listing _ | histogram _ => exact about
  | draw d =>
    exact (tidy_aside.leads_perform d (fun _ _ => True) held).weaken fun _ _ _ _ _ => trivial
  | param name =>
    have found : (tidying strict).Leads (HostM.param name) s fun _ _ => True :=
      Leads.hostLookBind (Leads.hostOf held fun _ _ => trivial)
    exact found.bind fun _ _ held _ _ => .pure held trivial
  | interrupt =>
    obtain ⟨after, gone⟩ := tidy_unguarded s s.handlers true held
    exact done (Leads.change after gone trivial)
  | resetInterrupt =>
    obtain ⟨after, gone⟩ := tidy_unguarded s s.handlers false held
    exact done (Leads.change after gone trivial)
  | handlersPop kind =>
    exact (tidy_unguarded.leads_popHandler held).bind fun _ _ held _ _ => .pure held trivial
  | handlersClear =>
    obtain ⟨after, gone⟩ := tidy_unguarded s [] s.interrupted held
    exact done (Leads.change after gone trivial)
  | newEnv env limit =>
    refine done ((tidy_newEnvironment held).bind fun e t held _ new => ?_)
    exact (tidy_putEnvironment held new.1).weaken fun _ _ _ _ _ => trivial
  | pushFrame env => exact done (tidy_pushFrame held SymbolTable.tidy_empty)
  | popFrame env => exact (tidy_popFrame held).bind fun _ _ held _ _ => .pure held trivial
  | pushTable env name =>
    refine done ((tidy_table _ held).bind fun frame t held _ ⟨tidy, same⟩ => ?_)
    rw [← same] at tidy
    have dropped : { t with tables := Named.drop name t.tables }.Tidy strict :=
      { held with tables := fun p mem => held.tables p (Named.mem_drop mem) }
    exact (tidy_pushFrame dropped tidy).continued rfl ((tidying strict).refl t)
  | lookup _ _ | lookupOverload _ _ _ =>
    exact (tidy_scope held).bind fun _ _ held _ _ => Leads.hostOfBind held fun _ _ =>
      .pure held trivial
  | clearEnv env => exact done (tidy_clearScope held)
  | cloneEnv source target kind =>
    exact done ((tidy_environment held).bind fun _ _ held _ tidy => tidy_cloneInto held tidy.1)
  | loadEnv source target kind =>
    exact done ((tidy_environment held).bind fun _ _ held _ tidy => tidy_loadInto held tidy.1)
  | sharesBase a b =>
    have shared : (tidying strict).Leads (HostM.sharesBase a b) s fun _ _ => True :=
      (tidy_environment held).bind fun _ _ held _ _ =>
        (tidy_environment held).bind fun _ _ held _ _ => .pure held trivial
    exact shared.bind fun _ _ held _ _ => .pure held trivial
  | newTable name | clearTable name => exact done (tidy_putTable held SymbolTable.tidy_empty)
  | tableGet _ _ | tableOverload _ _ _ | tableContains _ _ | tableKeys _ =>
    exact (tidy_table _ held).bind fun _ _ held _ _ => .pure held trivial
  | duplicateTable source target kind =>
    refine done ((tidy_table _ held).bind fun t u held _ ⟨tidy, same⟩ => ?_)
    rw [← same] at tidy
    exact (tidy_overHeap tidy.duplicate held).bind fun copy w held _ tidy => tidy_putTable held tidy
  | loadTable source target kind =>
    refine done ((tidy_table _ held).bind fun t u held _ ⟨tidy, same⟩ => ?_)
    rw [← same] at tidy
    refine (tidy_overHeap tidy.cloned held).bind fun bs w held _ tidy =>
      tidy_onTable held fun x table => ?_
    exact table.load tidy.answered

/-! ## Frames of calls -/

/-- The symbols of parameters are plain names. -/
theorem tidy_bindings {params : List Param} {args : List Handle} (held : s.Tidy strict) :
    (tidying strict).Leads (HostM.bindings params args) s fun bs _ =>
      ∀ b ∈ bs, ∃ name, b.1 = .plain name := by
  refine Leads.mapM (R := fun (b : Symbol × Handle) (_ : Host) => ∃ name, b.1 = .plain name)
    (fun _ _ _ plain _ => plain) held fun (p, a) mem t held gone => ?_
  have bound : (tidying strict).Leads (bound p.mode a) t fun _ _ => True := by
    cases p.mode with
    | reference => exact .pure held trivial
    | value => exact tidy_onHeap _ held
  exact bound.bind fun _ _ held _ _ => .pure held ⟨p.name, rfl⟩

/-- A frame binds plain names only. -/
theorem tidy_bindParams {c : Callable} {args : List Handle} (held : s.Tidy strict) :
    (tidying strict).Leads (bindParams c args) s fun _ _ => True := by
  refine (tidy_bindings held).bind fun bs t held _ plain => ?_
  refine (Course.leads_frame held).bind fun f u held gone ⟨_, loaded⟩ => ?_
  have answered : ∀ b ∈ bs, b.1.AnsweredBy strict (u.heap.data b.2) := by
    intro b mem
    obtain ⟨name, same⟩ := plain b mem
    rw [same]
    trivial
  have frame := SymbolTable.tidy_empty.load answered
  rw [endState, loaded] at frame
  exact (tidy_pushFrame held frame).bind fun _ _ held _ _ => .pure held trivial

/-- A frame for a while, dropped however the step in it ends. -/
theorem tidy_framed {α : Type} {env : EnvName} {step : HostM α} {Q : α → Prop}
    (held : s.Tidy strict)
    (inner : ∀ t, t.Tidy strict → (tidying strict).Leads step t fun a _ => Q a) :
    (tidying strict).Leads (framed env step) s fun a _ => Q a := by
  have push : (tidying strict).Leads (onScope env (Scope.push .empty)) s fun _ t => t.Tidy strict :=
    (tidy_pushFrame held SymbolTable.tidy_empty).weaken fun _ _ held _ _ => held
  refine Course.leads_framed (D := tidying strict) push (fun t held _ => inner t held)
    fun t u gone held further => ?_
  have pop : (tidying strict).Leads (popFrame env) u fun _ _ => True := tidy_popFrame held
  exact ⟨pop.atEnd.1, (tidying strict).trans gone ((tidying strict).trans further pop.atEnd.2)⟩

theorem tidy_scopeReports {env : EnvName} {bindings : List (String × Handle)} {keys : List String}
    (held : s.Tidy strict) :
    (tidying strict).Leads (scopeReports env bindings keys) s fun _ _ => True := by
  have reads : ∀ t, t.Tidy strict → (tidying strict).Leads (environment env) t fun _ _ => True :=
    fun t held => (tidy_environment held).weaken fun _ _ _ _ _ => trivial
  refine tidy_framed held fun t held => ?_
  refine (leads_scopeBody (C := tidying strict) reads held ?_ ?_).weaken fun _ _ _ _ _ => trivial
  · exact fun b _ u held _ => tidy_bindPlace (.symbol env b.1) held
  · exact fun u held => tidy_framed held fun _ held => leads_depthOf reads held

theorem tidy_callStates {name : String} {args : List Handle} (held : s.Tidy strict) :
    (tidying strict).Leads (HostM.callStates name args) s fun _ _ => True := by
  have resolved : (tidying strict).Leads (resolve name args.length) s fun _ _ => True :=
    Leads.hostLookBind (Leads.hostOfBind held fun _ _ => tidy_onHeap _ held)
  refine resolved.bind fun c t held gone _ =>
    (tidy_bindParams held).bind fun params u held _ _ => ?_
  refine Leads.hostLookBind ?_
  refine (Leads.mapM (R := fun _ _ => True) (fun _ _ _ _ _ => trivial) held fun _ _ _ held _ =>
    Leads.hostLook held trivial).bind fun images w held _ _ => ?_
  exact (tidy_popFrame held).bind fun _ _ held _ _ => .pure held trivial

/-- Fewer frames are tidy. -/
theorem Tidy.unwind (tidy : s.Tidy strict) (depth : Nat) : (s.unwind depth).Tidy strict :=
  { tidy with env := ⟨tidy.env.base, tidy.env.stack.unwind depth⟩ }

end Steps

/-! ## Evaluations -/

/-- Tidy hosts; programs use any values. -/
def orderly (strict : Prop) : Regime where
  course :=
    { holds := Tidy strict
      goes := fun _ _ => True
      refl := fun _ => trivial
      trans := fun _ _ => trivial }
  uses _ _ := True

/-- A watch that lets acts pass or stops them and does nothing else, and that lets no assignment
pass after which a host is tidy no longer. -/
def Retains (strict : Prop) (watch : Act → HostM Unit) : Prop := ∀ (act : Act) (s : Host),
  (watch act s = .ok () s ∧ ∀ a b, act = .operate .assign a b → s.Tidy strict →
    { s with heap := endState (HeapM.assign a b) s.heap }.Tidy strict) ∨
    ∃ e, watch act s = .error e s

/-- Without strictness, every assignment can pass. -/
theorem retains_nothing : Retains False fun _ => return () := fun _ s =>
  .inl ⟨rfl, fun a b _ held => held.setHeap (Heap.lasts_assign a b s.heap).atEnd.2⟩

section Lawful

variable {strict : Prop} {s : Host}

/-- What keeps a host tidy step by step keeps it tidy. -/
theorem orderly_of_tidying {α : Type} {m : HostM α} {Q : α → Host → Prop}
    (leads : (tidying strict).Leads m s Q) : (orderly strict).course.Leads m s fun _ _ => True := by
  have kept : (orderly strict).course.Leads m s fun a t => Q a t ∧ t.Tidy strict :=
    leads.narrow fun _ held _ => ⟨held, trivial⟩
  exact kept.weaken fun _ _ _ _ _ => trivial

/-- A step over the heap that leaves the host tidy. -/
theorem orderly_onHeap {m : HeapM Unit} (after : { s with heap := endState m s.heap }.Tidy strict) :
    (orderly strict).course.Leads (onHeap m) s fun _ _ => True := by
  cases ends : m s.heap with
  | ok u h =>
    have run : onHeap m s = .ok u { s with heap := h } := by simp only [onHeap, ends]
    simp only [endState, ends] at after
    exact .of_ok run after trivial trivial
  | error f h =>
    have run : onHeap m s = .error (.fault f) { s with heap := h } := by simp only [onHeap, ends]
    simp only [endState, ends] at after
    exact .of_error run after trivial

/-- **Hosts stay tidy** under a watch that stops what has to be stopped. -/
theorem tidy_lawful {watch : Act → HostM Unit} (retains : Retains strict watch) :
    (orderly strict).Lawful watch := by
  have plain : ∀ {s : Host} {step : HostM Yield},
      (orderly strict).course.Leads step s (fun _ _ => True) →
      (orderly strict).course.Leads step s fun y t => y.All ((orderly strict).uses t) :=
    fun leads => leads.weaken fun y _ _ _ _ => by cases y <;> trivial
  have heapLaw : (orderly strict).HeapLawful :=
    { lasts := fun _ _ => trivial
      heap := fun _ held _ => (orderly_of_tidying (tidy_onHeap _ held)).weaken fun _ _ _ _ _ _ _ =>
        trivial }
  exact {
    heapLaw with
    found := fun _ _ => trivial
    overload := fun _ _ => trivial
    register := fun _ _ => trivial
    aside := fun s stream log held => ⟨(tidy_aside s stream log held).1, trivial⟩
    hold := fun held _ =>
      Leads.change ⟨held.bases, held.env, held.environments, held.tables⟩ trivial trivial
    pushHandler := fun held _ => orderly_of_tidying (tidy_unguarded.leads_pushHandler held)
    popHandler := fun held => orderly_of_tidying (tidy_unguarded.leads_popHandler held)
    command := fun c held => leads_act (retains _ _) held fun _ =>
      plain (orderly_of_tidying (tidy_command c held))
    bind := fun place held _ => leads_act (retains _ _) held fun _ =>
      leads_effect (orderly_of_tidying (tidy_bindPlace place held))
    operate := fun op held _ _ => leads_act (retains _ _) held fun assigned =>
      heapLaw.leads_binary op held trivial trivial
        (fun same => orderly_onHeap (assigned _ _ (by rw [same]) held))
        fun position _ => orderly_of_tidying (tidy_onHeap _ held)
    setElements := fun held _ _ => leads_act (retains _ _) held fun _ =>
      leads_effect (orderly_of_tidying (tidy_onHeap _ held))
    restore := fun _ _ _ _ held _ _ => orderly_of_tidying (tidy_onHeap _ held)
    enter := fun held _ => orderly_of_tidying (tidy_bindParams held)
    counted := fun held => ⟨⟨held.bases, held.env, held.environments, held.tables⟩, fun held _ =>
      ⟨⟨held.bases, held.env, held.environments, held.tables⟩, trivial, fun _ _ => trivial⟩⟩
    unwind := fun _ held _ => ⟨held.unwind _, trivial, fun _ _ => trivial⟩
    callStates := fun held _ => plain (orderly_of_tidying (tidy_callStates held))
    scopes := fun held _ => plain (orderly_of_tidying (tidy_scopeReports held)) }

end Lawful

/-! ## Runs -/

section Runs

variable {strict : Prop} {watch : Act → HostM Unit} {s t : Host}

/-- **One step** keeps a host tidy. -/
theorem WatchedStep.tidy (step : WatchedStep watch s t) (retains : Retains strict watch)
    (held : s.Tidy strict) : t.Tidy strict := by
  cases step with
  | evaluate e levels unstopped =>
    rw [← endState_unstopped unstopped]
    exact ((tidy_lawful retains).leads_watched e levels held).atEnd.1
  | hold register v made => exact ⟨held.bases, held.env, held.environments, held.tables⟩
  | enter c args made => exact (tidy_bindParams held).atEnd.1
  | leave depth => exact held.unwind depth
  | count calls => exact ⟨held.bases, held.env, held.environments, held.tables⟩
  | log reports => exact ⟨held.bases, held.env, held.environments, held.tables⟩

/-- **A run** keeps a host tidy. -/
theorem WatchedRun.tidy (run : WatchedRun watch s t) (retains : Retains strict watch)
    (held : s.Tidy strict) : t.Tidy strict := by
  induction run with
  | refl => exact held
  | tail _ step ih => exact step.tidy retains ih

/-- A bare host binds nothing. -/
theorem bare_tidy (settings : Settings) : (bare settings).Tidy strict where
  bases i := by
    have none : (bare settings).base i = .empty := by cases i <;> simp [base, bare]
    rw [none]
    exact SymbolTable.tidy_empty
  env := ⟨by simp [bare], Stack.tidy_empty _⟩
  environments := by simp [bare]
  tables := by simp [bare]

end Runs

end Host

namespace Library

variable {strict : Prop} {s : Host}

theorem tidy_bindPlain {name : String} {v : Handle} (held : s.Tidy strict) :
    (Host.tidying strict).Leads (bindPlain name v) s fun _ _ => True :=
  Host.tidy_bindPlace (.plainSymbol .host (marked name)) held

/-- A constant is bound under a plain name. -/
theorem tidy_installConstant {name : String} {l : Leaf} (held : s.Tidy strict) :
    (Host.tidying strict).Leads (installConstant name l) s fun _ _ => True := by
  unfold installConstant
  exact (Host.tidy_onHeap _ held).bind fun _ _ held _ _ => tidy_bindPlain held

/-- A routine is bound under its name and arity. -/
theorem tidy_installRoutine {r : Routine} (held : s.Tidy strict) :
    (Host.tidying strict).Leads (installRoutine r) s fun _ _ => True := by
  unfold installRoutine
  obtain ⟨name, params⟩ := r.signature
  refine (Host.tidy_onHeap _ held).bind fun v t held _ _ =>
    (Host.tidy_onHeap _ held).bind fun _ u held _ _ => ?_
  exact Host.tidy_bindPlace (.symbol .host (marked name)) held

/-- A second name for a routine is a plain one. -/
theorem tidy_installAlias {plain name : String} (held : s.Tidy strict) :
    (Host.tidying strict).Leads (installAlias plain name) s fun _ _ => True := by
  unfold installAlias
  refine Leads.hostLookBind (Leads.hostOfBind held fun v _ => ?_)
  exact tidy_bindPlain held

theorem tidy_installVersion (held : s.Tidy strict) :
    (Host.tidying strict).Leads installVersion s fun _ _ => True := by
  unfold installVersion
  refine (Host.tidy_onHeap _ held).bind fun v t held _ _ =>
    (Host.tidy_onHeap _ held).bind fun _ u held _ _ => ?_
  exact tidy_bindPlain held

/-- The start of a host leaves it tidy. -/
theorem tidy_install (held : s.Tidy strict) :
    (Host.tidying strict).Leads install s fun _ _ => True := by
  unfold install
  refine Leads.bind (Q := fun _ _ => True) (Leads.forM held fun p mem _ held _ => ?_)
    fun _ _ held _ _ => ?_
  · obtain ⟨name, l⟩ := p
    exact tidy_installConstant held
  refine Leads.bind (Q := fun _ _ => True) (Leads.forM held fun r _ _ held _ => ?_)
    fun _ _ held _ _ => ?_
  · exact tidy_installRoutine held
  refine Leads.bind (Q := fun _ _ => True) (Leads.forM held fun p _ _ held _ => ?_)
    fun _ _ held _ _ => ?_
  · obtain ⟨plain, name⟩ := p
    exact tidy_installAlias held
  exact (tidy_installVersion held).bind fun _ _ held _ _ =>
    Host.tidy_pushFrame held SymbolTable.tidy_empty

end Library

namespace Host

/-- **A host starts tidy**, with the library installed. -/
theorem start_tidy {strict : Prop} (settings : Settings) : (start settings).Tidy strict :=
  (Library.tidy_install (bare_tidy settings)).atEnd.1

theorem session_tidy {strict : Prop} (session : Session) : session.host.Tidy strict := by
  unfold Session.host
  split
  · exact bare_tidy session.settings
  · exact start_tidy session.settings

/-- **Every reachable host is tidy.** -/
theorem Reachable.tidy {s : Host} (reachable : s.Reachable) : s.Tidy False := by
  obtain ⟨session, run⟩ := reachable
  exact run.watched.tidy retains_nothing (session_tidy session)

end Host

end ScriptHost
