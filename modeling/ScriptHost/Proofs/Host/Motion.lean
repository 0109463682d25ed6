import ScriptHost.Proofs.Heap.Hereditary
import ScriptHost.Proofs.Host.Conduct
import ScriptHost.Proofs.Host.Turn

/-!
# How a host moves

Most of what a program does runs no body. All such steps move a host in one way, `Host.Moved`: the
number of calls in progress stays, and a stack that counts may become deeper, within its limit, but
not less deep. The exceptions are the few commands that drop frames or put another environment in
the place of one that counts (`Command.Resets`). That is what abiding by the conduct `moving` says,
and this module says it of every step that runs no body.
-/

set_option autoImplicit false

namespace ScriptHost

open HostM Course

/-! ## How stacks and hosts move -/

/-- A stack that has become deeper at most, and stays within its limit if it was, as does the
greatest depth it has had. -/
structure Stack.Rises (a b : Stack) : Prop where
  limit : b.limit = a.limit
  depth : a.depth ≤ b.depth
  attained : a.attained ≤ b.attained
  bounded : 0 < a.limit → a.depth ≤ a.limit → b.depth ≤ a.limit
  reached : 0 < a.limit → a.attained ≤ a.limit → b.attained ≤ a.limit

namespace Stack.Rises

variable {a b c : Stack}

theorem refl (a : Stack) : a.Rises a := ⟨rfl, le_rfl, le_rfl, fun _ low => low, fun _ low => low⟩

theorem trans (first : a.Rises b) (second : b.Rises c) : a.Rises c where
  limit := second.limit.trans first.limit
  depth := first.depth.trans second.depth
  attained := first.attained.trans second.attained
  bounded positive low := by
    have middle := first.bounded positive low
    rw [← first.limit] at positive middle ⊢
    exact second.bounded positive middle
  reached positive low := by
    have middle := first.reached positive low
    rw [← first.limit] at positive middle ⊢
    exact second.reached positive middle

/-- A stack that has become deeper can lose a frame. -/
theorem pop (rises : a.Rises b) (deeper : a.depth < b.depth) : a.Rises b.pop := by
  have depth : b.pop.depth = b.depth - 1 := List.length_tail
  refine ⟨rises.limit, ?_, rises.attained, fun positive low => ?_, rises.reached⟩
  · omega
  · have := rises.bounded positive low
    omega

end Stack.Rises

/-- A push puts one more frame on a stack that is not full; a full one it leaves as it is. -/
theorem Stack.push_cases (frame : SymbolTable) (k : Stack) :
    (k.isFull = true ∧ Stack.push frame k = .error (.stackOverflow (k.depth + 1) k.limit) k) ∨
      ∃ l, Stack.push frame k = .ok () l ∧ l.depth = k.depth + 1 ∧ k.Rises l := by
  by_cases full : k.isFull = true
  · exact .inl ⟨full, push_of_isFull full frame⟩
  · refine .inr ⟨{ k with frames := frame :: k.frames, attained := max k.attained (k.depth + 1) },
      ?_, rfl, ?_⟩
    · simp only [push, full, Bool.false_eq_true, if_false]
    · have room (positive : 0 < k.limit) : k.depth + 1 ≤ k.limit :=
        Nat.le_of_not_lt fun less => full (by simp [isFull, less, positive])
      refine ⟨rfl, Nat.le_succ _, Nat.le_max_left _ _, fun positive _ => room positive,
        fun positive low => ?_⟩
      exact Nat.max_le.mpr ⟨low, room positive⟩

/-- A frame is refused by a full stack, and otherwise is put on top. -/
theorem Scope.push_cases (frame : SymbolTable) (v : Scope) :
    (v.stack.isFull = true ∧
      Scope.push frame v = .error (.stackOverflow (v.stack.depth + 1) v.stack.limit) v) ∨
      ∃ l, Scope.push frame v = .ok () { v with stack := l } ∧ l.depth = v.stack.depth + 1 ∧
      v.stack.Rises l := by
  rcases Stack.push_cases frame v.stack with ⟨full, run⟩ | ⟨l, run, deeper, rises⟩
  · exact .inl ⟨full, by simp only [push, onStack, run]⟩
  · exact .inr ⟨l, by simp only [push, onStack, run], deeper, rises⟩

namespace Host

/-- The calls in progress stay the same number, the settings stay, and the stacks that count
rise. -/
structure Moved (counts : EnvName → Prop) (s t : Host) : Prop where
  calls : t.callDepth = s.callDepth
  settings : t.settings = s.settings
  rises : ∀ {name : EnvName} {e : Environment}, counts name → s.environment? name = some e →
    ∃ k, t.environment? name = some ⟨e.base, k⟩ ∧ e.stack.Rises k

namespace Moved

variable {counts : EnvName → Prop} {s t u : Host} {name : EnvName} {e : Environment}

theorem refl (s : Host) : s.Moved counts s := ⟨rfl, rfl, fun _ here => ⟨_, here, .refl _⟩⟩

theorem trans (first : s.Moved counts t) (second : t.Moved counts u) : s.Moved counts u := by
  refine ⟨second.calls.trans first.calls, second.settings.trans first.settings,
    fun counted here => ?_⟩
  obtain ⟨k, there, rises⟩ := first.rises counted here
  obtain ⟨l, there, further⟩ := second.rises counted there
  exact ⟨l, there, rises.trans further⟩

/-- What neither counts calls nor touches settings and environments. -/
theorem of_same (calls : t.callDepth = s.callDepth) (settings : t.settings = s.settings)
    (env : t.env = s.env) (environments : t.environments = s.environments) : s.Moved counts t := by
  refine ⟨calls, settings, fun {name e} _ here => ⟨e.stack, ?_, .refl _⟩⟩
  rw [← here]
  cases name with
  | host => exact congrArg some env
  | named n => exact congrArg (Named.find n) environments

/-- Another environment under a name. -/
theorem withEnvironment {f : Environment} (rises : ∀ e, counts name → s.environment? name = some e →
    f.base = e.base ∧ e.stack.Rises f.stack) : s.Moved counts (s.withEnvironment name f) := by
  refine ⟨by cases name <;> rfl, by cases name <;> rfl, fun {other e} counted here => ?_⟩
  by_cases same : other = name
  · subst same
    obtain ⟨base, rises⟩ := rises e counted here
    exact ⟨f.stack, by rw [environment?_withEnvironment_self, ← base], rises⟩
  · exact ⟨e.stack, by rw [environment?_withEnvironment_ne same, here], .refl _⟩

/-- What a step makes of the scope of an environment. -/
theorem withScope {v : Scope} (here : s.environment? name = some e)
    (rises : counts name → e.stack.Rises v.stack) : s.Moved counts (s.withScope name e v) := by
  have based : s.Moved counts { s with bases := s.bases.setIfInBounds e.base v.base } :=
    .of_same rfl rfl rfl rfl
  have there : { s with bases := s.bases.setIfInBounds e.base v.base }.environment? name =
      some e := by
    rw [← here]
    cases name <;> rfl
  refine based.trans (withEnvironment fun f counted found => ?_)
  rw [there] at found
  cases found
  exact ⟨rfl, rises counted⟩

/-- A move that has made a stack deeper, followed by the loss of a frame. -/
theorem pop {f : Environment} (moved : s.Moved counts t) (there : t.environment? name = some f)
    (deeper : counts name → ∀ e, s.environment? name = some e → e.stack.depth < f.stack.depth) :
    s.Moved counts (t.withEnvironment name { f with stack := f.stack.pop }) := by
  refine ⟨by cases name <;> exact moved.calls, by cases name <;> exact moved.settings,
    fun {other e} counted here => ?_⟩
  obtain ⟨k, found, rises⟩ := moved.rises counted here
  by_cases same : other = name
  · subst same
    rw [there] at found
    cases found
    exact ⟨k.pop, environment?_withEnvironment_self, rises.pop (deeper counted e here)⟩
  · exact ⟨k, by rw [environment?_withEnvironment_ne same, found], rises⟩

end Moved

/-- Hosts whose contents have a property, moving. -/
def motion (D : Data Handle → Prop) (counts : EnvName → Prop) : Course Host where
  holds s := s.heap.All D
  goes := Moved counts
  refl := .refl
  trans := .trans

/-- Hosts whose own stack has at least so many frames. -/
def reaching (depth : Nat) : Course Host where
  holds s := depth ≤ s.env.stack.depth
  goes _ _ := True
  refl _ := trivial
  trans _ _ := trivial

end Host

/-- Whether a command drops frames of an environment that counts, or puts another one in its
place. -/
def Command.Resets (counts : EnvName → Prop) : Command → Prop
  | .newEnv env _ | .popFrame env | .clearEnv env | .cloneEnv _ env _ => counts env
  | _ => False

/-- The conduct of all steps that run no body and drop no frame that counts. -/
@[reducible] def Conduct.moving (D : Data Handle → Prop) (counts : EnvName → Prop) : Conduct where
  contents := D
  permits _ := True
  counts := counts
  course := Host.motion D counts
  tireless := True

namespace Conduct.Moving

open Host

variable {D : Data Handle → Prop} [law : Data.Hereditary D] {counts : EnvName → Prop} {α : Type}
  {s : Host}

/-! ## Steps over the heap -/

omit law in
instance onHeap (m : HeapM α) [kept : (Heap.all D).KeptBy m] :
    (moving D counts).Abides (onHeap m) := by
  refine ⟨fun s held => ?_⟩
  have leads := kept.leads s.heap held
  cases ends : m s.heap with
  | ok a h =>
    obtain ⟨all, -, -⟩ := leads.ok ends
    have run : HostM.onHeap m s = .ok a { s with heap := h } := by simp only [HostM.onHeap, ends]
    exact .of_ok run all (.of_same rfl rfl rfl rfl) trivial
  | error f h =>
    obtain ⟨all, -⟩ := leads.error ends
    have run : HostM.onHeap m s = .error (.fault f) { s with heap := h } := by
      simp only [HostM.onHeap, ends]
    exact .of_fault run all (.of_same rfl rfl rfl rfl)

omit law in
instance heapEffect (m : HeapM Unit) [(Heap.all D).KeptBy m] :
    (moving D counts).Abides (heapEffect m) := .effect _

omit law in
instance heapValue (m : HeapM Handle) [(Heap.all D).KeptBy m] :
    (moving D counts).Abides (heapValue m) := by
  unfold HostM.heapValue
  infer_instance

omit law in
instance heapReport (f : α → Report) (m : HeapM α) [(Heap.all D).KeptBy m] :
    (moving D counts).Abides (heapReport f m) := by
  unfold HostM.heapReport
  infer_instance

instance cloned (t : SymbolTable) (kind : CloneKind) : (Heap.all D).KeptBy (t.cloned kind) := by
  unfold SymbolTable.cloned
  cases kind <;> infer_instance

instance duplicate (t : SymbolTable) (kind : CloneKind) :
    (Heap.all D).KeptBy (t.duplicate kind) := by
  unfold SymbolTable.duplicate
  infer_instance

omit law in
instance callable (v : Handle) (arity : Nat) : (Heap.all D).KeptBy (HeapM.callable v arity) :=
  .ask _

instance errorReport (location message : String) :
    (Heap.all D).KeptBy (errorReport location message) := by
  unfold HostM.errorReport setText
  infer_instance

omit law in
instance imagesOf (vs : List Handle) : (Heap.all D).KeptBy (imagesOf vs) := .look _

/-! ## Environments and tables -/

omit law in
/-- A change that has nothing to do with contents, calls, settings and environments. -/
theorem aside {f : Host → Host} (heap : ∀ s, (f s).heap = s.heap)
    (calls : ∀ s, (f s).callDepth = s.callDepth) (settings : ∀ s, (f s).settings = s.settings)
    (env : ∀ s, (f s).env = s.env) (environments : ∀ s, (f s).environments = s.environments) :
    (moving D counts).Abides (change f) := by
  refine ⟨fun s held =>
    .of_ok rfl ?_ (.of_same (calls s) (settings s) (env s) (environments s)) trivial⟩
  show (f s).heap.All D
  rw [heap]
  exact held

omit law in
instance newEnvironment (limit : Nat) : (moving D counts).Abides (newEnvironment limit) :=
  ⟨fun _ held => .of_ok rfl held (.of_same rfl rfl rfl rfl) trivial⟩

omit law in
/-- Another environment can come in the place of one that does not count. -/
theorem putEnvironment {name : EnvName} (uncounted : ¬ counts name) (e : Environment) :
    (moving D counts).Abides (putEnvironment name e) := by
  refine ⟨fun s held => .of_ok run_putEnvironment ?_ (.withEnvironment fun _ counted _ =>
    absurd counted uncounted) trivial⟩
  show (s.withEnvironment name e).heap.All D
  rw [heap_withEnvironment]
  exact held

omit law in
/-- An environment that is looked up is there afterwards. -/
theorem follows_environment (counts : EnvName → Prop) (name : EnvName) (held : s.heap.All D) :
    (moving D counts).Follows (environment name) s fun e t => t.environment? name = some e := by
  cases there : s.environment? name with
  | some e => exact .of_ok (run_environment there) held (.refl s) there
  | none =>
    refine .of_ok (run_environment_new there) ?_ ?_ environment?_withEnvironment_self
    · show (Host.withEnvironment _ name _).heap.All D
      rw [heap_withEnvironment]
      exact held
    · have based : s.Moved counts { s with bases := s.bases.push .empty } :=
        .of_same rfl rfl rfl rfl
      have absent : { s with bases := s.bases.push .empty }.environment? name = none := by
        rw [← there]
        cases name <;> rfl
      refine based.trans (.withEnvironment fun e _ found => ?_)
      rw [absent] at found
      cases found

/-- An environment that is asked for is there, or is made. -/
theorem exists_environment (name : EnvName) (s : Host) : ∃ e t, environment name s = .ok e t := by
  cases there : s.environment? name with
  | some e => exact ⟨e, s, run_environment there⟩
  | none => exact ⟨_, _, run_environment_new there⟩

omit law in
instance environment (name : EnvName) : (moving D counts).Abides (environment name) :=
  ⟨fun _ held => (follows_environment counts name held).weaken fun _ _ _ _ _ => trivial⟩

omit law in
instance scope (name : EnvName) : (moving D counts).Abides (HostM.scope name) := by
  unfold HostM.scope
  infer_instance

omit law in
/-- A step over a scope under which its stack rises. -/
theorem onScope {name : EnvName} {step : ScopeM α}
    (rises : counts name → ∀ v : Scope, v.stack.Rises (endState step v).stack) :
    (moving D counts).Abides (onScope name step) := by
  refine ⟨fun s held => (follows_environment counts name held).bind fun e t held _ here =>
    Follows.lookBind ?_⟩
  have store : ∀ u : Scope, (counts name → e.stack.Rises u.stack) → (moving D counts).Follows (do
      change fun s => { s with bases := s.bases.setIfInBounds e.base u.base }
      HostM.putEnvironment name { e with stack := u.stack }) t fun _ _ => True := by
    intro u rises
    have run : (do
        change fun s => { s with bases := s.bases.setIfInBounds e.base u.base }
        HostM.putEnvironment name { e with stack := u.stack }) t =
          .ok () (t.withScope name e u) := by cases name <;> rfl
    refine .of_ok run ?_ (.withScope here rises) trivial
    show (t.withScope name e u).heap.All D
    rw [Host.withScope, heap_withEnvironment]
    exact held
  cases ends : step (t.scopeOf e) with
  | ok a u =>
    refine (store u fun counted => ?_).bind fun _ _ held _ _ => .pure held trivial
    have risen := rises counted (t.scopeOf e)
    rwa [endState, ends] at risen
  | error f u =>
    refine (store u fun counted => ?_).bind fun _ _ held _ _ => .fail held
    have risen := rises counted (t.scopeOf e)
    rwa [endState, ends] at risen

/-- A push leaves the stack as high as it was, or one higher. -/
theorem rises_push (frame : SymbolTable) (v : Scope) :
    v.stack.Rises (endState (Scope.push frame) v).stack := by
  rcases Scope.push_cases frame v with ⟨-, run⟩ | ⟨l, run, -, rises⟩
  · rw [endState, run]
    exact .refl _
  · rw [endState, run]
    exact rises

/-- Binding a name changes a table, not the number of them. -/
theorem rises_onTarget (key : String) (step : String → TableM Unit) (v : Scope) :
    v.stack.Rises (endState (Scope.onTarget key step) v).stack := by
  unfold Scope.onTarget
  split
  next name _ =>
    rw [Scope.endState_onBase]
    exact .refl _
  next name _ =>
    cases shape : v.stack.frames with
    | nil =>
      rw [Scope.endState_onInnermost_nil _ shape]
      exact .refl _
    | cons f fs =>
      rw [Scope.endState_onInnermost_cons _ shape]
      have depth : v.stack.depth = fs.length + 1 := by rw [Stack.depth, shape, List.length_cons]
      refine ⟨rfl, ?_, le_rfl, fun _ low => ?_, fun _ low => low⟩
      · show v.stack.depth ≤ fs.length + 1
        omega
      · show fs.length + 1 ≤ v.stack.limit
        omega

omit law in
instance push (name : EnvName) (frame : SymbolTable) :
    (moving D counts).Abides (HostM.onScope name (Scope.push frame)) :=
  onScope fun _ => rises_push frame

omit law in
instance insert (env : EnvName) (key : String) (v : Handle) (d : Data Handle) :
    (moving D counts).Abides (HostM.onScope env (Scope.insert key v d)) :=
  onScope fun _ => rises_onTarget key _

omit law in
instance insertPlain (env : EnvName) (key : String) (v : Handle) :
    (moving D counts).Abides (HostM.onScope env (Scope.insertPlain key v)) :=
  onScope fun _ => rises_onTarget key _

omit law in
instance putTable (name : String) (t : SymbolTable) : (moving D counts).Abides (putTable name t) :=
  aside (fun _ => rfl) (fun _ => rfl) (fun _ => rfl) (fun _ => rfl) fun _ => rfl

omit law in
instance onTable (name : String) (step : TableM Unit) :
    (moving D counts).Abides (onTable name step) := by
  refine ⟨fun s held => Follows.lookBind ?_⟩
  cases step ((Named.find name s.tables).getD .empty) <;> dsimp only <;> exact Abides.follows s held

omit law in
/-- A frame may be dropped where frames are not counted. -/
theorem popFrame {name : EnvName} (uncounted : ¬ counts name) :
    (moving D counts).Abides (popFrame name) := by
  have put := fun e => putEnvironment (D := D) uncounted e
  unfold HostM.popFrame
  infer_instance

/-! ## Clones of environments -/

omit law in
instance setBase (i : Nat) (t : SymbolTable) :
    (moving D counts).Abides (change fun s => { s with bases := s.bases.setIfInBounds i t }) :=
  aside (fun _ => rfl) (fun _ => rfl) (fun _ => rfl) (fun _ => rfl) fun _ => rfl

instance loadBase (source target : Nat) (kind : CloneKind) :
    (moving D counts).Abides (loadBase source target kind) := by
  refine ⟨fun s held => Follows.lookBind ((Abides.follows s held).bind fun bs t held _ _ =>
    Follows.lookBind ?_)⟩
  cases SymbolTable.load bs (t.base target) <;> dsimp only <;> exact Abides.follows t held

instance loadInto (source : Environment) (name : EnvName) (kind : CloneKind) :
    (moving D counts).Abides (loadInto source name kind) := by
  unfold HostM.loadInto
  infer_instance

/-- There an environment may be replaced by a clone, too. -/
theorem cloneInto {name : EnvName} (uncounted : ¬ counts name) (source : Environment)
    (kind : CloneKind) : (moving D counts).Abides (cloneInto source name kind) := by
  have put := fun e => putEnvironment (D := D) uncounted e
  unfold HostM.cloneInto
  cases kind <;> infer_instance

/-! ## Acts -/

omit law in
instance setHandlers (f : Host → List (FaultKind × Handle)) :
    (moving D counts).Abides (change fun s => { s with handlers := f s }) :=
  aside (fun _ => rfl) (fun _ => rfl) (fun _ => rfl) (fun _ => rfl) fun _ => rfl

omit law in
instance pushHandler (kind : FaultKind) (v : Handle) :
    (moving D counts).Abides (pushHandler kind v) := by
  unfold HostM.pushHandler
  infer_instance

omit law in
instance popHandler (kind : FaultKind) : (moving D counts).Abides (popHandler kind) := by
  unfold HostM.popHandler
  infer_instance

omit law in
instance bindPlace (v : Handle) (place : Place) : (moving D counts).Abides (place.bind v) := by
  cases place <;> unfold Place.bind <;> infer_instance

omit law in
instance draw (f : RandomStream → α) : (moving D counts).Abides (Routine.draw f) :=
  ⟨fun _ held => .of_ok rfl held (.of_same rfl rfl rfl rfl) trivial⟩

omit law in
instance tryDraw (f : RandomStream → Except Fault α) :
    (moving D counts).Abides (Routine.tryDraw f) := by
  refine ⟨fun s held => ?_⟩
  cases drawn : f s.stream with
  | ok a =>
    have run : Routine.tryDraw f s = .ok a { s with stream := s.stream.advance } := by
      simp only [Routine.tryDraw, drawn]
    exact .of_ok run held (.of_same rfl rfl rfl rfl) trivial
  | error e =>
    have run : Routine.tryDraw f s = .error (.fault e) s := by simp only [Routine.tryDraw, drawn]
    exact .of_fault run held (.refl s)

omit law in
instance setStream (stream : RandomStream) :
    (moving D counts).Abides (change fun s => { s with stream := stream }) :=
  aside (fun _ => rfl) (fun _ => rfl) (fun _ => rfl) (fun _ => rfl) fun _ => rfl

omit law in
instance performDraw (d : Draw) : (moving D counts).Abides d.perform := by
  cases d <;> unfold Draw.perform <;> infer_instance

omit law in
instance setInterrupted (b : Bool) :
    (moving D counts).Abides (change fun s => { s with interrupted := b }) :=
  aside (fun _ => rfl) (fun _ => rfl) (fun _ => rfl) (fun _ => rfl) fun _ => rfl

omit law in
instance dropTable (name : String) :
    (moving D counts).Abides (change fun s => { s with tables := Named.drop name s.tables }) :=
  aside (fun _ => rfl) (fun _ => rfl) (fun _ => rfl) (fun _ => rfl) fun _ => rfl

omit law in
instance scopeReport (name : EnvName) (f : Scope → Report) :
    (moving D counts).Abides (scopeReport name f) := by
  unfold HostM.scopeReport
  infer_instance

/-- **Commands**, but for those that reset a stack that counts. -/
theorem command {c : Command} (kept : ¬ c.Resets counts) : (moving D counts).Abides c.perform := by
  cases c with
  | newEnv env limit =>
    have put := fun e => putEnvironment (D := D) kept e
    exact .effect _
  | popFrame env =>
    have popped := popFrame (D := D) kept
    exact .bind _ _
  | clearEnv env =>
    have cleared : (moving D counts).Abides (clearScope env) :=
      onScope fun counted => absurd counted kept
    exact .effect _
  | cloneEnv source target kind =>
    have cloned := fun e => cloneInto (D := D) kept e kind
    exact .effect _
  | interrupt | resetInterrupt | handlersClear | pushFrame _ | pushTable _ _ | loadEnv _ _ _
  | newTable _ | clearTable _ | duplicateTable _ _ _ | loadTable _ _ _ => exact .effect _
  | param _ | callDepth | isInterrupted | handlersPop _ | handlersDepth _ | handlersSnapshot _
  | settings | lookup _ _ | lookupOverload _ _ _ | tableGet _ _ | tableOverload _ _ _
  | tableContains _ _ | tableKeys _ => exact .bind _ _
  | draw d => exact performDraw d
  | symbolExists _ _ | envStats _ | baseKeys _ | listing _ | histogram _ => exact scopeReport _ _
  | sharesBase a b =>
    have shared : (moving D counts).Abides (HostM.sharesBase a b) := .bind _ _
    exact .bind _ _

/-! ## Frames of calls -/

instance bound (mode : BindingMode) (arg : Handle) : (moving D counts).Abides (bound mode arg) := by
  unfold HostM.bound
  cases mode <;> infer_instance

instance bindings (params : List Param) (args : List Handle) :
    (moving D counts).Abides (bindings params args) := by
  unfold HostM.bindings
  infer_instance

instance bindParams (c : Callable) (args : List Handle) :
    (moving D counts).Abides (bindParams c args) := by
  unfold HostM.bindParams
  infer_instance

instance resolve (name : String) (arity : Nat) : (moving D counts).Abides (resolve name arity) := by
  unfold HostM.resolve
  infer_instance

/-- The frame of a call stands on top of those that were there. -/
theorem deeper_bindParams {c : Callable} {args vs : List Handle} {t : Host}
    (run : HostM.bindParams c args s = .ok vs t) : s.env.stack.depth < t.env.stack.depth := by
  -- until the frame is pushed, only the heap changes
  have kept : (reaching s.env.stack.depth).Leads (HostM.bindings c.params args) s fun _ _ => True :=
    Course.leads_bindings (fun m _ held => Leads.onAnyHeap m fun _ => ⟨held, trivial⟩) le_rfl
  have whole : (reaching s.env.stack.depth).Leads (HostM.bindParams c args) s fun _ t =>
      s.env.stack.depth < t.env.stack.depth := by
    refine kept.bind fun bs t held _ _ => (Course.leads_frame held).bind fun f u held _ _ => ?_
    refine Leads.bind (Q := fun _ t => s.env.stack.depth < t.env.stack.depth) ?_
      fun _ _ held _ deeper => .pure held deeper
    rcases Scope.push_cases f (u.scopeOf u.env) with ⟨-, run⟩ | ⟨l, run, depth, -⟩
    · exact .of_error (run_onScope_error rfl run) held trivial
    · have deeper : s.env.stack.depth < l.depth := by
        rw [depth]
        exact Nat.lt_succ_of_le held
      exact .of_ok (run_onScope rfl run) deeper.le trivial deeper
  exact (whole.ok run).2.2

/-- The frame of a call is above those that there were. -/
theorem follows_bindParams (counts : EnvName → Prop) (c : Callable) (args : List Handle)
    (held : s.heap.All D) :
    (moving D counts).Follows (HostM.bindParams c args) s fun _ t =>
      s.env.stack.depth < t.env.stack.depth := by
  have follows : (moving D counts).Follows (HostM.bindParams c args) s fun _ _ => True :=
    Abides.follows s held
  exact follows.also fun _ _ run => deeper_bindParams run

/-! ## Frames for a while -/

omit law in
/-- A frame can be dropped from a stack that has become deeper. -/
theorem run_popFrame {t : Host} (name : EnvName) (held : t.heap.All D) (moved : s.Moved counts t)
    (deeper : counts name → ∀ e f, s.environment? name = some e → t.environment? name = some f →
      e.stack.depth < f.stack.depth) :
    ∃ b u, HostM.popFrame name t = .ok b u ∧ u.heap.All D ∧ s.Moved counts u := by
  obtain ⟨f, t', run⟩ := exists_environment name t
  obtain ⟨held, found, there⟩ := (follows_environment counts name held).1.ok run
  refine ⟨decide (f.stack.depth ≠ 0), t'.withEnvironment name { f with stack := f.stack.pop }, ?_,
    ?_, ?_⟩
  · simp only [HostM.popFrame, Bind.bind, EStateM.bind, run, run_putEnvironment]
    rfl
  · rw [heap_withEnvironment]
    exact held
  · refine (moved.trans found).pop there fun counted e here => ?_
    -- what counts and was there before is there now, and nothing has to be made
    obtain ⟨k, known, -⟩ := moved.rises counted here
    rw [run_environment known] at run
    cases run
    exact deeper counted e _ here known

omit law in
/-- A push that succeeds leaves the stack deeper. -/
theorem deeper_push {t : Host} {name : EnvName} {frame : SymbolTable} {e f : Environment}
    (run : HostM.onScope name (Scope.push frame) s = .ok () t) (here : s.environment? name = some e)
    (there : t.environment? name = some f) : e.stack.depth < f.stack.depth := by
  rcases Scope.push_cases frame (s.scopeOf e) with ⟨-, pushed⟩ | ⟨l, pushed, depth, -⟩
  · rw [run_onScope_error here pushed] at run
    cases run
  · rw [run_onScope here pushed] at run
    cases run
    rw [environment?_withScope_self] at there
    cases there
    show e.stack.depth < l.depth
    rw [depth]
    exact Nat.lt_succ_self _

omit law in
instance framed (env : EnvName) (step : HostM α) [inner : (moving D counts).Abides step] :
    (moving D counts).Abides (framed env step) := by
  refine ⟨fun s held => ?_⟩
  have pushed : (moving D counts).Follows (HostM.onScope env (Scope.push .empty)) s fun _ _ =>
      True := Abides.follows s held
  cases first : HostM.onScope env (Scope.push .empty) s with
  | error e t =>
    obtain ⟨held, gone, ends⟩ := pushed.error first
    have whole : HostM.framed env step s = .error e t := by
      simp only [HostM.framed, Bind.bind, EStateM.bind, first]
    exact .of_error whole held gone ends
  | ok _ t =>
    obtain ⟨held, gone, -⟩ := pushed.1.ok first
    have close : ∀ u, u.heap.All D → t.Moved counts u →
        ∃ b w, HostM.popFrame env u = .ok b w ∧ w.heap.All D ∧ s.Moved counts w := by
      refine fun u held further => run_popFrame _ held (gone.trans further)
        fun counted e f here there => ?_
      obtain ⟨k, middle, -⟩ := gone.rises counted here
      obtain ⟨l, found, rises⟩ := further.rises counted middle
      rw [there] at found
      cases found
      exact (deeper_push first here middle).trans_le rises.depth
    cases ends : step t with
    | ok a u =>
      obtain ⟨held, further, -⟩ := (inner.follows t held).1.ok ends
      obtain ⟨b, w, popped, held, gone⟩ := close u held further
      have whole : HostM.framed env step s = .ok a w := by
        simp only [HostM.framed, Bind.bind, EStateM.bind, first, ends, popped]
      exact .of_ok whole held gone trivial
    | error e u =>
      obtain ⟨held, further, up⟩ := (inner.follows t held).error ends
      obtain ⟨b, w, popped, held, gone⟩ := close u held further
      have whole : HostM.framed env step s = .error e w := by
        simp only [HostM.framed, Bind.bind, EStateM.bind, first, ends, popped]
      exact .of_error whole held gone up

omit law in
instance depthOf (env : EnvName) : (moving D counts).Abides (depthOf env) := by
  unfold HostM.depthOf
  infer_instance

omit law in
instance foundReport (env : EnvName) (key : String) :
    (moving D counts).Abides (foundReport env key) := by
  refine ⟨fun s held => (Abides.follows s held).bind fun v t held _ _ => ?_⟩
  cases v.lookup key with
  | ok v => exact Abides.follows t held
  | error f => exact .pure held trivial

omit law in
instance innerReport (env : EnvName) : (moving D counts).Abides (innerReport env) := by
  refine ⟨fun s held => ?_⟩
  have inner : (moving D counts).Follows (HostM.framed env (HostM.depthOf env)) s fun _ _ => True :=
    Abides.follows s held
  cases ends : HostM.framed env (HostM.depthOf env) s with
  | ok n t =>
    obtain ⟨held, gone, -⟩ := inner.1.ok ends
    have whole : HostM.innerReport env s = .ok (.number n) t := by
      simp only [HostM.innerReport, ends]
    exact .of_ok whole held gone trivial
  | error halt t =>
    obtain ⟨held, gone, up⟩ := inner.error ends
    cases halt with
    | fault f =>
      have whole : HostM.innerReport env s = .ok (.fault f) t := by
        simp only [HostM.innerReport, ends]
      exact .of_ok whole held gone trivial
    | exhausted => exact absurd rfl (up trivial)

omit law in
instance scopeReports (env : EnvName) (bindings : List (String × Handle)) (keys : List String) :
    (moving D counts).Abides (scopeReports env bindings keys) := by
  unfold HostM.scopeReports
  infer_instance

/-- Values are looked at in one and the same host. -/
theorem run_imagesOf (vs : List Handle) (s : Host) : ∃ rs, vs.mapM HostM.imageOf s = .ok rs s := by
  induction vs with
  | nil => exact ⟨[], rfl⟩
  | cons v vs ih =>
    obtain ⟨rs, run⟩ := ih
    rw [List.mapM_cons]
    exact ⟨_, by simp only [HostM.imageOf, look, Bind.bind, EStateM.bind, run]; rfl⟩

instance callStates (name : String) (args : List Handle) :
    (moving D counts).Abides (callStates name args) := by
  refine ⟨fun s held => (Abides.follows s held).bind fun c t held _ _ => ?_⟩
  have bound := follows_bindParams counts c args held
  cases first : HostM.bindParams c args t with
  | error e u =>
    obtain ⟨held, gone, ends⟩ := bound.error first
    refine .of_error (e := e) (t := u) ?_ held gone ends
    simp only [Bind.bind, EStateM.bind, first]
  | ok vs u =>
    obtain ⟨held, gone, deeper⟩ := bound.1.ok first
    obtain ⟨images, looked⟩ := run_imagesOf vs u
    have pop := run_popFrame .host held gone fun _ e f here there => by
      cases here
      cases there
      exact deeper
    obtain ⟨b, w, popped, held, gone⟩ := pop
    refine .of_ok (a := .report (.record [("callable", .text c.text),
      ("states", .texts ["Resolved", "FrameBound"]),
      ("depth", .number u.env.stack.depth), ("params", .list images)])) (t :=
      w) ?_ held gone trivial
    simp only [Bind.bind, EStateM.bind, first, look, looked, popped]
    rfl

/-! ## Values -/

/-- The value that a report stands for is no executable. -/
theorem plain_of_toLeaf {r : Report} {l : Leaf} (stands : r.toLeaf? = some l) : l.Plain := by
  cases r with
  | flag b =>
    cases stands
    infer_instance
  | number n =>
    obtain ⟨i, -, rfl⟩ := Option.map_eq_some_iff.mp stands
    infer_instance
  | text s =>
    cases stands
    infer_instance
  | nothing | image _ | list _ | record _ => cases stands

instance toHandle (y : Yield) : (moving D counts).Abides y.toHandle := by
  cases y with
  | value v => exact .pure _
  | report r =>
    unfold Yield.toHandle
    dsimp only
    split
    next l stands =>
      have plain := plain_of_toLeaf stands
      infer_instance
    · infer_instance

/-- A numeral is a number. -/
theorem plain_of_numeral {text : String} {l : Leaf} (run : numeral text = .ok l) : l.Plain := by
  unfold numeral at run
  split at run
  · obtain ⟨r, -, rfl⟩ := Except.ok_of_map run
    infer_instance
  · obtain ⟨i, -, rfl⟩ := Except.ok_of_map run
    infer_instance

instance make (l : Literal) : (Heap.all D).KeptBy l.make := by
  cases l with
  | numeral text =>
    refine ⟨fun h held => Leads.ofBind held fun l run => ?_⟩
    have plain := plain_of_numeral run
    exact (HeapM.inherits_newLeaf l).leads h held
  | _ =>
    unfold Literal.make
    infer_instance

instance held (register : String) : (moving D counts).Abides (held register) := by
  refine ⟨fun s held => Follows.lookBind ?_⟩
  split
  · exact .pure held trivial
  · exact Abides.follows s held

omit law in
instance hold (register : String) (v : Handle) : (moving D counts).Abides (hold register v) :=
  aside (fun _ => rfl) (fun _ => rfl) (fun _ => rfl) (fun _ => rfl) fun _ => rfl

omit law in
instance log (r : Report) :
    (moving D counts).Abides (change fun s => { s with log := r :: s.log }) :=
  aside (fun _ => rfl) (fun _ => rfl) (fun _ => rfl) (fun _ => rfl) fun _ => rfl

instance unary (v : Handle) (op : Unary) : (moving D counts).Abides (op.perform v) := by
  cases op <;> unfold Unary.perform <;> infer_instance

instance binary (a b : Handle) (op : Binary) : (moving D counts).Abides (op.perform a b) := by
  cases op <;> unfold Binary.perform <;> infer_instance

/-! ## Parameters and answers of routines -/

omit law in
instance integerParam (name : String) : (moving D counts).Abides (Routine.integerParam name) := by
  unfold Routine.integerParam
  infer_instance

omit law in
instance realParam (name : String) : (moving D counts).Abides (Routine.realParam name) := by
  unfold Routine.realParam
  infer_instance

instance answer (l : Leaf) [l.Plain] : (moving D counts).Abides (Routine.answer l) := onHeap _

instance answerBoolean (b : Bool) : (moving D counts).Abides (Routine.answerBoolean b) := answer _

instance answerInteger (i : Integer) : (moving D counts).Abides (Routine.answerInteger i) :=
  answer _

instance answerReal (r : Double) : (moving D counts).Abides (Routine.answerReal r) := answer _

instance answerNull : (moving D counts).Abides Routine.answerNull := onHeap _

instance extreme (keep : Ordering) (values : List Handle) :
    (moving D counts).Abides (Routine.extreme keep values) := by
  cases values with
  | nil => exact answerNull
  | cons v vs => exact onHeap _

omit law in
instance faultKindParam (name : String) :
    (moving D counts).Abides (Routine.faultKindParam name) := by
  refine ⟨fun s held => (Abides.follows s held).bind fun index t held _ _ => ?_⟩
  cases FaultKind.ofIndex? index.toInt with
  | some k => exact .pure held trivial
  | none => exact .fail held

omit law in
instance overloadOf (name : String) (arity : Integer) :
    (moving D counts).Abides (Routine.overloadOf name arity) := by
  unfold Routine.overloadOf
  infer_instance

end Conduct.Moving

end ScriptHost
