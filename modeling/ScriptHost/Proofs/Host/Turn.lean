import ScriptHost.Proofs.Host.Owning
import ScriptHost.Proofs.Scope.Tidy

/-!
# Environments, one operation at a time

`EnvOp` lists what can be done to one environment of a host: names are bound in it, frames pushed
and dropped, another environment loaded into it, and it is emptied. Such an operation leaves all
other environments alone, with their frames, and all base tables but its own; and its own as well,
unless it is one that meets the base table (`EnvOp.turns`).
-/

set_option autoImplicit false

namespace ScriptHost

open HostM Course

namespace Host

/-! ## Environments by name -/

/-- The environment of a name, if there is one. -/
def environment? (s : Host) : EnvName → Option Environment
  | .host => some s.env
  | .named n => Named.find n s.environments

/-- The host with an environment under a name. -/
def withEnvironment (s : Host) (name : EnvName) (e : Environment) : Host :=
  match name with
  | .host => { s with env := e }
  | .named n => { s with environments := Named.put n e s.environments }

variable {s : Host} {name other : EnvName} {e : Environment}

@[simp] theorem environment?_withEnvironment_self :
    (s.withEnvironment name e).environment? name = some e := by
  cases name with
  | host => rfl
  | named n => exact Named.find_put_self n e s.environments

/-- Environments under other names stay. -/
theorem environment?_withEnvironment_ne (ne : other ≠ name) :
    (s.withEnvironment name e).environment? other = s.environment? other := by
  cases name with
  | host =>
    cases other with
    | host => exact absurd rfl ne
    | named m => rfl
  | named n =>
    cases other with
    | host => rfl
    | named m => exact Named.find_put_ne (fun same => ne (by rw [same])) e s.environments

@[simp] theorem bases_withEnvironment : (s.withEnvironment name e).bases = s.bases := by
  cases name <;> rfl

@[simp] theorem heap_withEnvironment : (s.withEnvironment name e).heap = s.heap := by
  cases name <;> rfl

@[simp] theorem base_withEnvironment (i : Nat) : (s.withEnvironment name e).base i = s.base i := by
  cases name <;> rfl

theorem run_putEnvironment : putEnvironment name e s = .ok () (s.withEnvironment name e) := by
  cases name <;> rfl

/-- An environment that is there is found. -/
theorem run_environment (here : s.environment? name = some e) : environment name s = .ok e s := by
  cases name with
  | host =>
    cases here
    rfl
  | named n =>
    have found : Named.find n s.environments = some e := here
    simp only [environment, look, Bind.bind, EStateM.bind, found]
    rfl

/-- An environment that is not there is made, with a base table of its own. -/
theorem run_environment_new (absent : s.environment? name = none) :
    environment name s = .ok ⟨s.bases.size, .empty Stack.defaultLimit⟩
      ({ s with bases := s.bases.push .empty }.withEnvironment name
        ⟨s.bases.size, .empty Stack.defaultLimit⟩) := by
  cases name with
  | host => cases absent
  | named n =>
    have missing : Named.find n s.environments = none := absent
    simp only [environment, look, Bind.bind, EStateM.bind, missing]
    rfl

/-- The host after a step over the scope of an environment. -/
def withScope (s : Host) (name : EnvName) (e : Environment) (t : Scope) : Host :=
  { s with bases := s.bases.setIfInBounds e.base t.base }.withEnvironment name ⟨e.base, t.stack⟩

/-- A step on a scope that succeeds changes the environment and its base table. -/
theorem run_onScope {α : Type} {step : ScopeM α} {a : α} {t : Scope}
    (here : s.environment? name = some e) (run : step (s.scopeOf e) = .ok a t) :
    onScope name step s = .ok a (s.withScope name e t) := by
  simp only [onScope, Bind.bind, EStateM.bind, run_environment here, look, run, change,
    run_putEnvironment]
  rfl

/-- So does one that fails. -/
theorem run_onScope_error {α : Type} {step : ScopeM α} {f : Fault} {t : Scope}
    (here : s.environment? name = some e) (run : step (s.scopeOf e) = .error f t) :
    onScope name step s = .error (.fault f) (s.withScope name e t) := by
  simp only [onScope, Bind.bind, EStateM.bind, run_environment here, look, run, change,
    run_putEnvironment]
  rfl

/-- Either way the scope is put back as the step left it. -/
theorem endState_onScope {α : Type} (step : ScopeM α) (here : s.environment? name = some e) :
    endState (onScope name step) s = s.withScope name e (endState step (s.scopeOf e)) := by
  cases ends : step (s.scopeOf e) with
  | ok a t => simp only [endState, run_onScope here ends, ends]
  | error f t => simp only [endState, run_onScope_error here ends, ends]

@[simp] theorem environment?_withScope_self {t : Scope} :
    (s.withScope name e t).environment? name = some ⟨e.base, t.stack⟩ :=
  environment?_withEnvironment_self

/-- The stacks of other environments stay. -/
theorem environment?_withScope_ne {t : Scope} (ne : other ≠ name) :
    (s.withScope name e t).environment? other = s.environment? other :=
  environment?_withEnvironment_ne ne

/-- Of the base tables, one can change. -/
theorem base_withScope {t : Scope} (i : Nat) :
    (s.withScope name e t).base i = if e.base = i ∧ e.base < s.bases.size then t.base
      else s.base i := by
  rw [withScope, base_withEnvironment, base_setBase]

end Host

/-! ## Operations -/

/-- What can be done to one environment. -/
inductive EnvOp where
  | insert (key : String) (v : Handle)
  | insertPlain (key : String) (v : Handle)
  | push
  | pushTable (table : String)
  | pop
  | clear
  | load (source : EnvName) (kind : CloneKind)

namespace EnvOp

/-- Does it to the environment of a name. -/
def perform (name : EnvName) : EnvOp → HostM Yield
  | .insert key v => effect ((Place.symbol name key).bind v)
  | .insertPlain key v => effect ((Place.plainSymbol name key).bind v)
  | .push => (Command.pushFrame name).perform
  | .pushTable table => (Command.pushTable name table).perform
  | .pop => (Command.popFrame name).perform
  | .clear => (Command.clearEnv name).perform
  | .load source kind => (Command.loadEnv source name kind).perform

/-- Whether an operation can change the base table: it binds a marked name, or any name when there
is no frame, or loads another environment, or empties this one. -/
def MeetsBase (s : Scope) : EnvOp → Prop
  | .insert key _ | .insertPlain key _ => (unmark key).1 = true ∨ s.stack.frames = []
  | .clear | .load _ _ => True
  | .push | .pushTable _ | .pop => False

end EnvOp

namespace Scope

variable {s : Scope}

/-- A bare name is bound in a frame if there is one. -/
theorem base_onTarget {key : String} {step : String → TableM Unit}
    (spared : ¬ ((unmark key).1 = true ∨ s.stack.frames = [])) :
    (endState (onTarget key step) s).base = s.base := by
  obtain ⟨bare, some⟩ := not_or.mp spared
  unfold onTarget
  split
  next name marked => exact absurd (by rw [marked]) bare
  next name _ =>
    obtain ⟨f, fs, shape⟩ := List.exists_cons_of_ne_nil some
    rw [endState_onInnermost_cons _ shape]

theorem base_push {frame : SymbolTable} : (endState (push frame) s).base = s.base := by
  rw [push, endState_onStack]

end Scope

namespace Host

/-- An operation on the environment of a name, whose base table has the number `own`. All other
environments stay as they are, and so do all base tables but that one, which does so if it is to be
spared. -/
def turning (name : EnvName) (own : Nat) (spared : Prop) : Course Host where
  holds s := ∃ k, s.environment? name = some ⟨own, k⟩
  goes s t := (∀ other e, other ≠ name → s.environment? other = some e →
    t.environment? other = some e) ∧ ∀ i, (i = own → spared) → t.base i = s.base i
  refl _ := ⟨fun _ _ _ there => there, fun _ _ => rfl⟩
  trans first second :=
    ⟨fun other e ne there => second.1 other e ne (first.1 other e ne there),
      fun i keeps => (second.2 i keeps).trans (first.2 i keeps)⟩

section Turning

variable {name : EnvName} {own : Nat} {spared : Prop} {s : Host}

/-- What neither environments nor base tables depend on. -/
theorem turning_change {f : Host → Host} (held : (turning name own spared).holds s)
    (env : (f s).env = s.env) (environments : (f s).environments = s.environments)
    (bases : (f s).bases = s.bases) :
    (turning name own spared).Leads (change f) s fun _ _ => True := by
  have same : ∀ other, (f s).environment? other = s.environment? other := by
    intro other
    cases other with
    | host => exact congrArg some env
    | named n => exact congrArg (Named.find n) environments
  refine Leads.change ?_ ⟨fun other e _ there => ?_, fun i _ => ?_⟩ trivial
  · obtain ⟨k, here⟩ := held
    exact ⟨k, by rw [same, here]⟩
  · rw [same, there]
  · simp only [base, bases]

/-- Steps over the heap touch no environment. -/
theorem turning_onHeap {α : Type} (m : HeapM α) (held : (turning name own spared).holds s) :
    (turning name own spared).Leads (onHeap m) s fun _ _ => True :=
  Leads.onAnyHeap m fun _ => ⟨held, (turning name own spared).refl s⟩

/-- An environment that is looked up may be made on the way. -/
theorem turning_environment (source : EnvName) (held : (turning name own spared).holds s) :
    (turning name own spared).Leads (environment source) s fun e t =>
      t.environment? source = some e := by
  cases there : s.environment? source with
  | some e => exact .of_ok (run_environment there) held ((turning name own spared).refl s) there
  | none =>
    obtain ⟨k, here⟩ := held
    have absent : ∀ {other : EnvName} {e : Environment}, s.environment? other = some e →
        other ≠ source := by
      rintro other e found rfl
      rw [there] at found
      cases found
    refine .of_ok (run_environment_new there) ⟨k, ?_⟩ ⟨fun other e _ found => ?_, fun i _ => ?_⟩ ?_
    · rw [environment?_withEnvironment_ne (absent here)]
      exact here
    · rw [environment?_withEnvironment_ne (absent found)]
      exact found
    · rw [base_withEnvironment, base_pushBase]
    · exact environment?_withEnvironment_self

/-- A step over the scope of the environment itself. -/
theorem turning_onScope {α : Type} {step : ScopeM α} (held : (turning name own spared).holds s)
    (keeps : ∀ e, s.environment? name = some e → spared →
      (endState step (s.scopeOf e)).base = (s.scopeOf e).base) :
    (turning name own spared).Leads (onScope name step) s fun _ _ => True := by
  obtain ⟨k, here⟩ := held
  have goes : ∀ t : Scope, (spared → t.base = s.base own) →
      (turning name own spared).goes s (s.withScope name ⟨own, k⟩ t) := by
    refine fun t kept => ⟨fun other e ne there => ?_, fun i keeps => ?_⟩
    · rw [environment?_withScope_ne ne]
      exact there
    · rw [base_withScope]
      split
      next same =>
        obtain rfl : own = i := same.1
        exact kept (keeps rfl)
      · rfl
  have kept := keeps ⟨own, k⟩ here
  cases ends : step (s.scopeOf ⟨own, k⟩) with
  | ok a t =>
    simp only [endState, ends] at kept
    exact .of_ok (run_onScope here ends) ⟨t.stack, environment?_withScope_self⟩
      (goes t kept) trivial
  | error f t =>
    simp only [endState, ends] at kept
    exact .of_error (run_onScope_error here ends)
      ⟨t.stack, environment?_withScope_self⟩ (goes t kept)

/-- A frame is pushed where it is one's turn. -/
theorem turning_push {frame : SymbolTable} (held : (turning name own spared).holds s) :
    (turning name own spared).Leads (onScope name (Scope.push frame)) s fun _ _ => True :=
  turning_onScope held fun _ _ _ => Scope.base_push

/-- A frame is dropped where it is one's turn. -/
theorem turning_popFrame (held : (turning name own spared).holds s) :
    (turning name own spared).Leads (popFrame name) s fun _ _ => True := by
  obtain ⟨k, here⟩ := held
  have run : popFrame name s =
      .ok (decide (k.depth ≠ 0)) (s.withEnvironment name ⟨own, k.pop⟩) := by
    simp only [popFrame, Bind.bind, EStateM.bind, run_environment here, run_putEnvironment]
    rfl
  refine .of_ok run ⟨k.pop, environment?_withEnvironment_self⟩ ⟨fun other e ne there =>
    ?_, fun i _ => ?_⟩ trivial
  · rw [environment?_withEnvironment_ne ne, there]
  · rw [base_withEnvironment]

/-- A load changes no base table but the one it goes into. -/
theorem turning_loadBase {source : Nat} {kind : CloneKind}
    (held : (turning name own spared).holds s) (met : ¬ spared) :
    (turning name own spared).Leads (loadBase source own kind) s fun _ _ => True := by
  have store : ∀ {t : Host} (u : SymbolTable), (turning name own spared).holds t →
      (turning name own spared).Leads
        (change fun s => { s with bases := s.bases.setIfInBounds own u }) t fun _ _ => True := by
    intro t u held
    refine Leads.change held ⟨fun _ _ _ there => there, fun i keeps => ?_⟩ trivial
    rw [base_setBase, if_neg fun same => met (keeps same.1.symm)]
  unfold loadBase
  refine Leads.hostLookBind ((turning_onHeap _ held).bind fun bs t held _ _ =>
    Leads.hostLookBind ?_)
  split
  next u _ => exact store u held
  next f u _ => exact (store u held).bind fun _ _ held _ _ => Leads.fail held

/-- A clone is loaded into one's own base table, if that is not to be spared. -/
theorem turning_loadInto {source : Environment} {kind : CloneKind}
    (held : (turning name own spared).holds s) (met : ¬ spared) :
    (turning name own spared).Leads (loadInto source name kind) s fun _ _ => True := by
  refine (turning_environment name held).bind fun e t held _ found => ?_
  have own : e.base = own := by
    obtain ⟨k, here⟩ := held
    rw [here] at found
    cases found
    rfl
  rw [own]
  refine (turning_loadBase held met).bind fun _ u held _ _ =>
    Leads.forM held fun frame _ w held _ => ?_
  exact (turning_onHeap _ held).bind fun copy x held _ _ => turning_push held

end Turning

end Host

/-- **An operation on one environment** leaves every other one alone, with its frames, and every
base table but its own; and its own unless it meets the base table. -/
theorem EnvOp.turns {s : Host} {name : EnvName} {e : Environment} (op : EnvOp)
    (here : s.environment? name = some e) :
    (Host.turning name e.base (¬ op.MeetsBase (s.scopeOf e))).Leads (op.perform name) s
      fun _ _ => True := by
  have held : (Host.turning name e.base (¬ op.MeetsBase (s.scopeOf e))).holds s := ⟨e.stack, here⟩
  have only : ∀ {x : Environment}, s.environment? name = some x → x = e := by
    intro x found
    rw [here] at found
    cases found
    rfl
  cases op with
  | insert key v =>
    refine Leads.bind (Leads.hostHeapLookBind (Host.turning_onScope held fun x found spared => ?_))
      fun _ _ held _ _ => .pure held trivial
    obtain rfl := only found
    exact Scope.base_onTarget spared
  | insertPlain key v =>
    refine Leads.bind (Host.turning_onScope held fun x found spared => ?_) fun _ _ held _ _ =>
      .pure held trivial
    obtain rfl := only found
    exact Scope.base_onTarget spared
  | push => exact (Host.turning_push held).bind fun _ _ held _ _ => .pure held trivial
  | pushTable table =>
    refine Leads.bind (Q := fun _ _ => True) (Leads.hostLookBind ?_) fun _ _ held _ _ =>
      .pure held trivial
    exact (Host.turning_change held rfl rfl rfl).bind fun _ _ held _ _ => Host.turning_push held
  | pop => exact (Host.turning_popFrame held).bind fun _ _ held _ _ => .pure held trivial
  | clear =>
    refine Leads.bind (Host.turning_onScope held fun _ _ spared => ?_) fun _ _ held _ _ =>
      .pure held trivial
    exact absurd trivial spared
  | load source kind =>
    refine Leads.bind (Q := fun _ _ => True) ((Host.turning_environment source held).bind
      fun x t held _ _ => ?_) fun _ _ held _ _ => .pure held trivial
    exact Host.turning_loadInto held fun spared => spared trivial

/-! ## Two environments in turn -/

namespace Host

/-- An operation on one of two environments, whether it fails or not. -/
inductive Turn (a b : EnvName) (s : Host) : Host → Prop where
  | first (op : EnvOp) : Turn a b s (endState (op.perform a) s)
  | second (op : EnvOp) : Turn a b s (endState (op.perform b) s)

/-- Any number of operations on two environments, interleaved in any way. -/
abbrev Turns (a b : EnvName) : Host → Host → Prop := Relation.ReflTransGen (Turn a b)

/-- Two environments, with the numbers of their base tables. -/
structure Pair (a b : EnvName) (m n : Nat) (s : Host) : Prop where
  first : ∃ k, s.environment? a = some ⟨m, k⟩
  second : ∃ k, s.environment? b = some ⟨n, k⟩

variable {a b : EnvName} {m n : Nat} {s t : Host} {x y : Environment}

/-- Two environments are a pair both ways round. -/
theorem Pair.symm (pair : Pair a b m n s) : Pair b a n m s := ⟨pair.second, pair.first⟩

/-- An operation on one of two environments, as seen from the other. -/
theorem seen_from (op : EnvOp) (ne : a ≠ b) (here : s.environment? a = some x)
    (there : s.environment? b = some y) :
    (endState (op.perform a) s).environment? b = some y ∧
      ((y.base = x.base → ¬ op.MeetsBase (s.scopeOf x)) →
        (endState (op.perform a) s).scopeOf y = s.scopeOf y) := by
  obtain ⟨-, others, bases⟩ := (op.turns here).atEnd
  refine ⟨others b y ne.symm there, fun spared => ?_⟩
  rw [scopeOf, scopeOf, bases y.base spared]

/-- **One operation** on one of two environments leaves both with their base tables. -/
theorem Pair.operate (pair : Pair a b m n s) (ne : a ≠ b) (op : EnvOp) :
    Pair a b m n (endState (op.perform a) s) := by
  obtain ⟨k, here⟩ := pair.first
  obtain ⟨l, there⟩ := pair.second
  exact ⟨(op.turns here).atEnd.1, l, (seen_from op ne here there).1⟩

/-- **Any operations** on them do. -/
theorem Pair.turns (pair : Pair a b m n s) (ne : a ≠ b) (turns : Turns a b s t) :
    Pair a b m n t := by
  induction turns with
  | refl => exact pair
  | tail _ turn ih =>
    cases turn with
    | first op => exact ih.operate ne op
    | second op => exact (ih.symm.operate ne.symm op).symm

end Host

end ScriptHost
