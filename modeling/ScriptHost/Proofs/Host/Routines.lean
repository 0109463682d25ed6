import ScriptHost.Proofs.Integrity
import ScriptHost.Proofs.Termination
import ScriptHost.Proofs.Uncatchable

/-!
# Calls of routines

A routine runs in the frame of its call. `Host.inCall` is the state in which it starts, when all its
parameters are taken by reference: one more frame, which binds the parameters to the arguments, and
one more call in progress. A call runs the routine there and takes both back (`Host.run_call`,
`Host.run_callValue`), unless the host is interrupted or has no room for the frame: then nothing has
changed (`Host.call_of_not_ready`).

`Host.Offers s key r` says that the key is found to stand for the routine `r`. A host that has kept
its library offers every routine of it (`Host.kept_offers`).
-/

set_option autoImplicit false

namespace ScriptHost

open HostM

/-- The parameters of a routine have these names, and are all taken by reference. -/
def Routine.Takes (r : Routine) (names : List String) : Prop :=
  r.signature.2 = byReference names ∧ names.Nodup

/-- An unlocked integer without bounds. -/
def Cell.number (i : Integer) : Cell := ⟨.leaf (.integer i none), false⟩

namespace Heap

variable {h h' : Heap} {v : Handle} {i : Integer}

theorem made_of_number (held : h.cell v = .number i) : h.Made v :=
  made_of_unlocked (by rw [isLocked, held]; rfl)

theorem data_of_number (held : h.cell v = .number i) : h.data v = .leaf (.integer i none) := by
  rw [data, held]
  rfl

end Heap

instance (b : Body) (r : Routine) : Decidable (b = .routine r) :=
  match b with
  | .routine q => decidable_of_iff (q = r) (by simp)
  | .script _ => isFalse nofun

instance {ρ : Type} (d : Data ρ) (r : Routine) : Decidable (d.Provides r) :=
  decidable_of_iff
    (∃ c ∈ d.asExecutable?.bind (·.get? r.signature.2.length), c.params = r.signature.2 ∧
      c.body = .routine r) <| by
    simp only [Option.mem_def, Option.bind_eq_some_iff, Data.Provides]
    constructor
    · rintro ⟨c, ⟨e, read, found⟩, is⟩
      exact ⟨e, c, Data.eq_of_asExecutable read, found, is⟩
    · rintro ⟨e, c, rfl, found, is⟩
      exact ⟨c, ⟨e, rfl, found⟩, is⟩

/-- The frame that binds names to values. -/
def SymbolTable.ofNames (bindings : List (String × Handle)) : SymbolTable :=
  ⟨(bindings.map fun b => (.plain b.1, b.2)).reverse⟩

namespace Host

/-- The host is not interrupted and has room for so many frames more. -/
def Ready (s : Host) (frames : Nat) : Prop :=
  s.interrupted = false ∧ (0 < s.env.stack.limit → s.env.stack.depth + frames ≤ s.env.stack.limit)

/-- The state in which a routine starts that is called with these parameters. -/
def inCall (s : Host) (bindings : List (String × Handle)) : Host :=
  { s with
    env := ⟨s.env.base, s.env.stack.pushed (.ofNames bindings)⟩
    callDepth := s.callDepth + 1 }

/-- The key is found to stand for a routine. -/
def Offers (s : Host) (key : String) (r : Routine) : Prop :=
  ∃ v, s.scope.lookupOverload key r.signature.2.length = .ok v ∧ (s.heap.data v).Provides r

instance (s : Host) (key : String) (r : Routine) : Decidable (s.Offers key r) :=
  decidable_of_iff
    (∃ v ∈ (s.scope.lookupOverload key r.signature.2.length).toOption,
      (s.heap.data v).Provides r) <| by
    refine exists_congr fun v => and_congr_left fun _ => ?_
    cases s.scope.lookupOverload key r.signature.2.length <;> simp [Except.toOption]

variable {s : Host} {r : Routine} {key : String} {names : List String} {v : Handle}
  {args : List Handle} {c : Callable} {n k : Nat}

/-! ## Room for a frame -/

/-- A host that is ready can push a frame. -/
theorem not_full_of_ready (ready : s.Ready 1) : ¬ s.env.stack.Full := by
  rintro ⟨limited, passed⟩
  have room := ready.2 limited
  omega

/-- One that is not, and not for an interrupt, cannot. -/
theorem full_of_not_ready (going : s.interrupted = false) (unready : ¬ s.Ready 1) :
    s.env.stack.Full := by
  by_contra room
  refine unready ⟨going, fun limited => ?_⟩
  by_contra passed
  exact room ⟨limited, by omega⟩

/-- A call takes one frame of the room. -/
theorem Ready.inCall (ready : s.Ready (k + 1)) (bindings : List (String × Handle)) :
    (s.inCall bindings).Ready k := by
  refine ⟨ready.1, fun limited => ?_⟩
  have room := ready.2 limited
  show s.env.stack.depth + 1 + k ≤ s.env.stack.limit
  omega

/-- Room inside of a call is room for one frame more outside. -/
theorem ready_of_inCall {bindings : List (String × Handle)} (ready : (s.inCall bindings).Ready k) :
    s.Ready (k + 1) := by
  refine ⟨ready.1, fun limited => ?_⟩
  have room : s.env.stack.depth + 1 + k ≤ s.env.stack.limit := ready.2 limited
  omega

theorem Ready.mono {j : Nat} (ready : s.Ready k) (fewer : j ≤ k) : s.Ready j :=
  ⟨ready.1, fun limited => (Nat.add_le_add_left fewer _).trans (ready.2 limited)⟩

theorem Ready.congr {t : Host} (ready : s.Ready k) (env : t.env = s.env)
    (interrupted : t.interrupted = s.interrupted) : t.Ready k := by
  rw [Ready, env, interrupted]
  exact ready

/-! ## Calls -/

/-- Parameters by reference are the arguments. -/
theorem bindings_byReference (names : List String) (args : List Handle) :
    bindings (Routine.byReference names) args =
      pure ((names.zip args).map fun b => (.plain b.1, b.2)) := by
  induction names generalizing args with
  | nil => rfl
  | cons name names ih =>
    cases args with
    | nil => rfl
    | cons a args =>
      have rest := ih args
      simp only [Routine.byReference] at rest
      simp only [Routine.byReference, List.map_cons, bindings_cons, bound, rest, pure_bind,
        List.zip_cons_cons]

/-- Parameters with different names make up a frame, in one way. -/
theorem frame_ofNames {bindings : List (String × Handle)} (distinct : (bindings.map (·.1)).Nodup) :
    frame (bindings.map fun b => (.plain b.1, b.2)) = pure (.ofNames bindings) := by
  have symbols : ((bindings.map fun b => (Symbol.plain b.1, b.2)).map (·.1) ++
      SymbolTable.empty.symbols).Nodup := by
    have plain : (bindings.map fun b => (Symbol.plain b.1, b.2)).map (·.1) =
        (bindings.map (·.1)).map Symbol.plain := by
      simp only [List.map_map]
      rfl
    have none : SymbolTable.empty.symbols = [] := rfl
    rw [plain, none, List.append_nil]
    exact distinct.map fun a b same => Symbol.plain.inj same
  simp only [frame, SymbolTable.run_load symbols]
  simp only [SymbolTable.empty, List.append_nil, SymbolTable.ofNames]

/-- The parameters of a routine are bound by the frame of the call. -/
theorem bindParams_eq (params : c.params = r.signature.2) (takes : r.Takes names)
    (arity : args.length = names.length) :
    bindParams c args = do onScope .host (Scope.push (.ofNames (names.zip args))) return args := by
  have left : (names.zip args).map (·.1) = names := List.map_fst_zip arity.ge
  have right : (names.zip args).map (·.2) = args := List.map_snd_zip arity.le
  have distinct : ((names.zip args).map (·.1)).Nodup := by
    rw [left]
    exact takes.2
  simp only [bindParams, params, takes.1, bindings_byReference, pure_bind,
    frame_ofNames distinct, List.map_map]
  exact congrArg (fun vs => onScope .host (Scope.push (.ofNames (names.zip args))) >>=
    fun _ => pure vs) right

/-- **A call of a routine** runs it in the frame of its call, which it drops, and counts the call
out. -/
theorem execute_routine (params : c.params = r.signature.2) (body : c.body = .routine r)
    (takes : r.Takes names) (arity : args.length = names.length) (ready : s.Ready 1) :
    execute (.free (n + 1)) c args s =
      always (r.perform (.free n)) (fun x => x.left.unwind s.env.stack.depth)
        (s.inCall (names.zip args)) := by
  have here : s.environment? .host = some s.env := rfl
  have pushed := run_push_of_not_full here (not_full_of_ready ready) (.ofNames (names.zip args))
  have bound : bindParams c args s =
      .ok args (s.withEnvironment .host ⟨s.env.base,
        s.env.stack.pushed (.ofNames (names.zip args))⟩) := by
    simp only [bindParams_eq params takes arity, Bind.bind, EStateM.bind, pushed]
    rfl
  rw [run_execute ready.1 bound, body]
  rfl

/-- A host that is not ready for the call of a routine stays as it is. -/
theorem execute_of_not_ready {run : Runner} (params : c.params = r.signature.2)
    (takes : r.Takes names) (arity : args.length = names.length) (unready : ¬ s.Ready 1) :
    ∃ f, execute run c args s = .error (.fault f) s := by
  cases going : s.interrupted with
  | false =>
    have here : s.environment? .host = some s.env := rfl
    have refused :=
      run_push_of_full here (full_of_not_ready going unready) (.ofNames (names.zip args))
    refine ⟨.stackOverflow (s.env.stack.depth + 1) s.env.stack.limit, ?_⟩
    simp only [execute, bindParams_eq params takes arity, Bind.bind, EStateM.bind, look, going,
      Bool.false_eq_true, if_false, refused]
  | true =>
    refine ⟨.interrupted, ?_⟩
    simp only [execute, Bind.bind, EStateM.bind, look, going, if_true]
    rfl

/-- A call by name calls what the name is found to stand for. -/
theorem call_eq (run : Runner) (offers : s.Offers key r)
    (arity : args.length = r.signature.2.length) :
    ∃ c, c.params = r.signature.2 ∧ c.body = .routine r ∧
      call run key args s = execute run c args s := by
  obtain ⟨v, found, e, c, held, has, params, body⟩ := offers
  rw [← arity] at found has
  exact ⟨c, params, body,
    by simp only [call, Bind.bind, EStateM.bind, resolve_of_found found held has]⟩

/-- A value that provides a routine runs it when it is called with as many arguments as the routine
takes. -/
theorem callValue_eq (run : Runner) (provides : (s.heap.data v).Provides r)
    (arity : args.length = r.signature.2.length) :
    ∃ c, c.params = r.signature.2 ∧ c.body = .routine r ∧
      callValue run v args s = execute run c args s := by
  obtain ⟨e, c, held, has, params, body⟩ := provides
  rw [← arity] at has
  have callee : onHeap (HeapM.callable v args.length) s = .ok c s := by
    simp only [onHeap, HeapM.callable, HeapM.ask, held, has]
  exact ⟨c, params, body, by simp only [callValue, Bind.bind, EStateM.bind, callee]⟩

theorem length_params (takes : r.Takes names) : r.signature.2.length = names.length := by
  rw [takes.1, Routine.byReference, List.length_map]

/-- A routine is called by name. -/
theorem run_call (args : List Handle) (offers : s.Offers key r) (takes : r.Takes names)
    (arity : args.length = names.length) (ready : s.Ready 1) :
    call (.free (n + 1)) key args s =
      always (r.perform (.free n)) (fun x => x.left.unwind s.env.stack.depth)
        (s.inCall (names.zip args)) := by
  obtain ⟨c, params, body, called⟩ :=
    call_eq (.free (n + 1)) offers (arity.trans (length_params takes).symm)
  rw [called, execute_routine params body takes arity ready]

/-- **A call for which there is no room fails**, and changes nothing. -/
theorem call_of_not_ready (run : Runner) (args : List Handle) (offers : s.Offers key r)
    (takes : r.Takes names) (arity : args.length = names.length) (unready : ¬ s.Ready 1) :
    ∃ f, call run key args s = .error (.fault f) s := by
  obtain ⟨c, params, -, called⟩ := call_eq run offers (arity.trans (length_params takes).symm)
  rw [called]
  exact execute_of_not_ready params takes arity unready

/-- A routine is called as a value. -/
theorem run_callValue (provides : (s.heap.data v).Provides r) (takes : r.Takes names)
    (arity : args.length = names.length) (ready : s.Ready 1) :
    callValue (.free (n + 1)) v args s =
      always (r.perform (.free n)) (fun x => x.left.unwind s.env.stack.depth)
        (s.inCall (names.zip args)) := by
  obtain ⟨c, params, body, called⟩ :=
    callValue_eq (.free (n + 1)) provides (arity.trans (length_params takes).symm)
  rw [called, execute_routine params body takes arity ready]

/-- No overload is bound by a parameter. -/
theorem get?_ofNames_overload (bindings : List (String × Handle)) (name : String) (arity : Nat) :
    (SymbolTable.ofNames bindings).get? (.overload name arity) = none := by
  rw [SymbolTable.get?_eq_none_iff, SymbolTable.ofNames, SymbolTable.symbols]
  simp

/-- What a key is found to stand for in a call: a parameter, if it has no mark and is the name of
one, and otherwise what it is found to stand for by the caller. -/
theorem find?_inCall (s : Host) (bindings : List (String × Handle)) (key : String) :
    (s.inCall bindings).scope.find? key =
      (if (unmark key).1 then none
        else (SymbolTable.ofNames bindings).get? (.plain (unmark key).2)).or
          (s.scope.find? key) := by
  have base : (s.inCall bindings).scope.base = s.scope.base := rfl
  have frames : (s.inCall bindings).scope.stack.frames =
      .ofNames bindings :: s.scope.stack.frames := rfl
  rcases split : unmark key with ⟨marked, name⟩
  cases marked with
  | true => simp only [Scope.find?, Scope.searchOrder, split, base, if_true, Option.none_or]
  | false =>
    simp only [Scope.find?, Scope.searchOrder, split, base, frames, List.cons_append,
      List.findSome?_cons, get?_ofNames_overload, Bool.false_eq_true, if_false]
    cases (SymbolTable.ofNames bindings).get? (.plain name) <;> rfl

/-- What a routine finds under the name of a parameter. -/
theorem param_inCall {name : String} {bindings : List (String × Handle)}
    (bare : unmark name = (false, name))
    (bound : (SymbolTable.ofNames bindings).get? (.plain name) = some v) :
    param name (s.inCall bindings) = .ok v (s.inCall bindings) := by
  have found : (s.inCall bindings).scope.find? name = some v := by
    rw [find?_inCall, bare]
    simp only [Bool.false_eq_true, if_false, bound, Option.some_or]
  simp only [param, Bind.bind, EStateM.bind, look, of, Scope.lookup, found]

/-! ## What the library offers -/

/-- No frame binds a symbol. -/
def Unshadowed (s : Host) (symbol : Symbol) : Prop :=
  ∀ frame ∈ s.env.stack.frames, frame.get? symbol = none

variable {settings : Settings}

/-- A host that has kept its library is a reachable one. -/
theorem kept_reachable (run : WatchedRun Fence.aroundTable.watch (start settings) s) :
    s.Reachable := by
  obtain ⟨session, started⟩ := reachable_start settings
  exact ⟨session, started.trans run.run⟩

/-- What a symbol of the library means is what it stands for. -/
theorem kept_meaning {symbol : Symbol} (run : WatchedRun Fence.aroundTable.watch (start settings) s)
    (mem : symbol ∈ Library.symbols) (means : Library.meaning symbol = some r) :
    ∃ v, s.scope.base.get? symbol = some v ∧ (s.heap.data v).Provides r := by
  obtain ⟨v, found, made, locked, serves⟩ := (start_stocked settings).get? mem
  obtain ⟨-, changes⟩ := run.run.owning (start_owning settings)
  have same : s.heap.cell v = (start settings).heap.cell v := changes.cell_of_locked made locked
  refine ⟨v, run.get?_base (reachable_start settings) found, ?_⟩
  rw [Heap.data_congr same]
  exact serves r means

/-- A routine of the library that has another name. -/
theorem kept_plain {name : String} (run : WatchedRun Fence.aroundTable.watch (start settings) s)
    (mem : .plain name ∈ Library.symbols) (means : Library.meaning (.plain name) = some r) :
    ∃ v, s.scope.lookup (marked name) = .ok v ∧ (s.heap.data v).Provides r := by
  obtain ⟨v, found, provides⟩ := kept_meaning run mem means
  exact ⟨v, Scope.lookup_marked found, provides⟩

/-- A key leads to the base table if it is marked, or if no frame binds its symbol. -/
theorem lookupOverload_of_base {name : String} {arity : Nat} (names : (unmark key).2 = name)
    (clear : (unmark key).1 = true ∨ s.Unshadowed (.overload name arity))
    (found : s.scope.base.get? (.overload name arity) = some v) :
    s.scope.lookupOverload key arity = .ok v := by
  have only : s.scope.findOverload? key arity = some v := by
    rcases split : unmark key with ⟨marked, bare⟩
    rw [split] at names clear
    obtain rfl : bare = name := names
    cases marked with
    | true => simp [Scope.findOverload?, Scope.searchOrder, split, found]
    | false =>
      have clear : s.Unshadowed (.overload bare arity) := by simpa using clear
      have none : s.scope.stack.frames.findSome? (·.get? (.overload bare arity)) = none :=
        List.findSome?_eq_none_iff.mpr clear
      simp [Scope.findOverload?, Scope.searchOrder, split, List.findSome?_append, none, found]
  simp only [Scope.lookupOverload, only]

/-- **The library offers its routines**, by the marked name, and by the bare name where no frame
binds another one. -/
theorem kept_offers (run : WatchedRun Fence.aroundTable.watch (start settings) s)
    (mem : r ∈ Routine.all) (names : (unmark key).2 = r.signature.1)
    (clear : (unmark key).1 = true ∨ s.Unshadowed (Library.symbolOf r)) : s.Offers key r := by
  obtain ⟨v, found, provides⟩ :=
    kept_meaning run (Library.symbolOf_mem_symbols mem) (Library.meaning_symbolOf r mem)
  exact ⟨v, lookupOverload_of_base names clear found, provides⟩

/-- Routines are offered under their marked names, whatever has been bound since. -/
theorem kept_offers_marked {name : String}
    (run : WatchedRun Fence.aroundTable.watch (start settings) s) (mem : r ∈ Routine.all)
    (names : r.signature.1 = name) : s.Offers (marked name) r :=
  kept_offers run mem (by simp [names]) (.inl (by simp))

/-! ## Hosts that have just started -/

/-- A host starts with one empty frame. -/
theorem start_env (settings : Settings) :
    (start settings).env = ⟨0, (Stack.empty settings.stackLimit).pushed .empty⟩ ∧
      (start settings).interrupted = false := by
  obtain ⟨t, env, interrupted, started⟩ := start_pushed settings
  have here : t.environment? .host = some t.env := rfl
  have room : ¬ t.env.stack.Full := by
    rw [env]
    rintro ⟨limited, passed⟩
    exact absurd limited (Nat.not_lt.mpr (Nat.lt_succ_iff.mp passed))
  have pushed : start settings =
      t.withEnvironment .host ⟨t.env.base, t.env.stack.pushed .empty⟩ := by
    rw [started, endState, run_push_of_not_full here room]
  rw [pushed, env]
  exact ⟨rfl, interrupted⟩

/-- A host that has just started has room for what its limit allows, but for its first frame. -/
theorem start_ready (settings : Settings)
    (room : 0 < settings.stackLimit → k + 1 ≤ settings.stackLimit) : (start settings).Ready k := by
  obtain ⟨env, interrupted⟩ := start_env settings
  refine ⟨interrupted, ?_⟩
  rw [env]
  intro limited
  have enough : k + 1 ≤ settings.stackLimit := room limited
  show 1 + k ≤ settings.stackLimit
  omega

theorem made_of_integer {h : Heap} {i : Integer} (held : h.data v = .leaf (.integer i none)) :
    h.Made v :=
  Heap.made_of_kind (by simp [Heap.kind, held, Data.kind, Leaf.kind])

/-- An integer stays what it is where values are made. -/
theorem data_integer {h h' : Heap} {i : Integer} (held : h.data v = .leaf (.integer i none))
    (extended : h.Extends h') : h'.data v = .leaf (.integer i none) := by
  rw [Heap.data_congr (extended.cell v (made_of_integer held)), held]

/-- Integers in an array, written out. -/
def integers (first : Integer) (is : List Integer) : Expr :=
  .array first (is.map fun i => .literal (.integer i)) .refuse

/-- The integers are made one after the other. -/
theorem evalAll_integers (is : List Integer) (s : Host) :
    ∃ vs h, (∀ run, Expr.evalAll run (is.map fun i => .literal (.integer i)) s =
      .ok vs { s with heap := h }) ∧ s.heap.Extends h ∧
      List.Forall₂ (fun v i => h.cell v = .number i) vs is := by
  induction is generalizing s with
  | nil => exact ⟨[], s.heap, fun run => rfl, .refl _, .nil⟩
  | cons i is ih =>
    let made := s.heap.push (.number i)
    obtain ⟨vs, h, rest, extended, cells⟩ := ih { s with heap := made }
    have here : made.cell ⟨s.heap.size⟩ = .number i := Heap.cell_push_new _ _
    have first : h.cell ⟨s.heap.size⟩ = .number i :=
      (extended.cell _ (Heap.made_of_number here)).trans here
    refine ⟨⟨s.heap.size⟩ :: vs, h, fun run => ?_, (Heap.extends_push _ _).trans extended,
      .cons first cells⟩
    have literal : (Expr.literal (.integer i)).eval run s =
        .ok (.value ⟨s.heap.size⟩) { s with heap := made } := by
      rw [Expr.eval]
      rfl
    rw [List.map_cons, Expr.evalAll]
    simp only [Bind.bind, EStateM.bind, literal, Yield.toHandle, Pure.pure, EStateM.pure, rest]

/-- A literal array of integers makes new numbers, and nothing else. -/
theorem eval_integers (first : Integer) (is : List Integer) (s : Host) :
    ∃ v q h, (∀ run, (integers first is).eval run s = .ok (.value v) { s with heap := h }) ∧
      s.heap.Extends h ∧ h.cell v = ⟨.array q, false⟩ ∧ q.start = first ∧
      List.Forall₂ (fun w i => h.cell w = .number i) q.items is := by
  obtain ⟨vs, h, ran, extended, cells⟩ := evalAll_integers is s
  refine ⟨⟨h.size⟩, .ofItems first vs .refuse, _, fun run => ?_,
    extended.trans (Heap.extends_push h _), Heap.cell_push_new h _, rfl,
    cells.imp fun w i held => ?_⟩
  · rw [integers, Expr.eval]
    simp only [Bind.bind, EStateM.bind, ran]
    rfl
  · exact ((Heap.extends_push h _).cell w (Heap.made_of_number held)).trans held

/-- The host in which an array of integers has been made. -/
def withIntegers (s : Host) (first : Integer) (is : List Integer) : Host :=
  endState ((integers first is).eval (.free 0)) s

/-- **A host at work**: it keeps its library and its room for calls, and there is an array. -/
theorem exists_numbers (run : WatchedRun Fence.aroundTable.watch (start settings) s)
    (ready : s.Ready k) (first : Integer) (is : List Integer) :
    WatchedRun Fence.aroundTable.watch (start settings) (s.withIntegers first is) ∧
      (s.withIntegers first is).Ready k ∧
    s.heap.Extends (s.withIntegers first is).heap ∧
    ∃ v q, (s.withIntegers first is).heap.cell v = ⟨.array q, false⟩ ∧ q.start = first ∧
      List.Forall₂ (fun w i => (s.withIntegers first is).heap.cell w = .number i) q.items is := by
  obtain ⟨v, q, h, ran, extended, held⟩ := eval_integers first is s
  have unstopped : Unstopped Fence.aroundTable.watch (integers first is) 0 s := by
    rw [Unstopped, ran, ran]
  have ends : s.withIntegers first is = { s with heap := h } := by rw [withIntegers, endState, ran]
  refine ⟨run.tail (.evaluate _ _ unstopped), ?_⟩
  rw [ends]
  exact ⟨ready.congr rfl rfl, extended, v, q, held⟩

/-- A host that has kept its library can be given such an array, and still has kept it. -/
theorem exists_integers (run : WatchedRun Fence.aroundTable.watch (start settings) s)
    (ready : s.Ready k) (first : Integer) (is : List Integer) :
    WatchedRun Fence.aroundTable.watch (start settings) (s.withIntegers first is) ∧
      (s.withIntegers first is).Ready k ∧
    s.heap.Extends (s.withIntegers first is).heap ∧
    ∃ v q, (s.withIntegers first is).heap.cell v = ⟨.array q, false⟩ ∧ q.start = first ∧
      List.Forall₂ (fun w i => (s.withIntegers first is).heap.data w = .leaf (.integer i none))
        q.items is := by
  obtain ⟨keeps, room, extended, v, q, held, starts, cells⟩ := exists_numbers run ready first is
  exact ⟨keeps, room, extended, v, q, held, starts, cells.imp fun _ _ => Heap.data_of_number⟩

end Host

end ScriptHost
