import ScriptHost.Library.Install
import ScriptHost.Proofs.Host.Endings
import ScriptHost.Proofs.Host.Motion

/-!
# Evaluations under a conduct

What a program does beyond moving its host is to run bodies: of the functions that it calls, of
handlers, and of the predicates that arrays are sorted and searched by. A body runs one call deeper,
so it is under a conduct of its own. `K.Lawful inner watch` says how the two fit together: what
moves the host keeps to `K`; a host that has moved into a call, with a frame more than before, is
one for `inner`; and from what a body leaves, its frames dropped and the call counted out, `K` can
go on.

If so, every evaluation abides by `K`, given that bodies abide by `inner` (`Lawful.abides_eval`).
The induction is on the text of the expression. Every command in the text has to be permitted, also
in the bodies of functions that it makes (`Expr.Only`); bodies that are run come from functions that
have been made.
-/

set_option autoImplicit false

namespace ScriptHost

open HostM Course

/-! ## Commands in the text -/

mutual

/-- Every command in the text of an expression has a property, also those in the bodies of the
functions that it makes. -/
def Expr.Only (P : Command → Prop) : Expr → Prop
  | .command c => P c
  | .literal _ | .ask _ | .raise _ | .held _ | .invokeHandlers _ _ _ => True
  | .unary _ e | .bind _ e | .hold _ e | .times _ e | .attempt e | .log e => e.Only P
  | .binary _ a b => a.Only P ∧ b.Only P
  | .insertKey t k e | .branch t k e => t.Only P ∧ k.Only P ∧ e.Only P
  | .setElements e es | .callValue e es => e.Only P ∧ Expr.AllOnly P es
  | .array _ es _ | .function _ _ es | .sequence es | .call _ es | .callStates _ es | .guard _ es
  | .run es => Expr.AllOnly P es
  | .dictionary es => Expr.EntriesOnly P es
  | .record es | .scope _ es _ => Expr.NamedOnly P es

def Expr.AllOnly (P : Command → Prop) : List Expr → Prop
  | [] => True
  | e :: es => e.Only P ∧ Expr.AllOnly P es

def Expr.NamedOnly (P : Command → Prop) : List (String × Expr) → Prop
  | [] => True
  | (_, e) :: es => e.Only P ∧ Expr.NamedOnly P es

def Expr.EntriesOnly (P : Command → Prop) : List (Expr × Expr) → Prop
  | [] => True
  | (k, e) :: es => k.Only P ∧ e.Only P ∧ Expr.EntriesOnly P es

end

/-- Every command in a body has a property. -/
def Body.Only (P : Command → Prop) : Body → Prop
  | .routine _ => True
  | .script code => Expr.AllOnly P code

section Every

variable {P : Command → Prop}

mutual

/-- A property that all commands have is one of the commands in every text. -/
theorem Expr.only_of_every (every : ∀ c, P c) (e : Expr) : e.Only P := by
  cases e with
  | command c => exact every c
  | literal _ | ask _ | raise _ | held _ | invokeHandlers _ _ _ => trivial
  | unary _ e | bind _ e | hold _ e | times _ e | attempt e | log e =>
    exact Expr.only_of_every every e
  | binary _ a b => exact ⟨Expr.only_of_every every a, Expr.only_of_every every b⟩
  | insertKey t k e | branch t k e =>
    exact ⟨Expr.only_of_every every t, Expr.only_of_every every k, Expr.only_of_every every e⟩
  | setElements e es | callValue e es =>
    exact ⟨Expr.only_of_every every e, Expr.allOnly_of_every every es⟩
  | array _ es _ | function _ _ es | sequence es | call _ es | callStates _ es
  | guard _ es | run es =>
    exact Expr.allOnly_of_every every es
  | dictionary es => exact Expr.entriesOnly_of_every every es
  | record es | scope _ es _ => exact Expr.namedOnly_of_every every es

theorem Expr.allOnly_of_every (every : ∀ c, P c) (es : List Expr) : Expr.AllOnly P es := by
  match es with
  | [] => trivial
  | e :: es => exact ⟨Expr.only_of_every every e, Expr.allOnly_of_every every es⟩

theorem Expr.namedOnly_of_every (every : ∀ c, P c) (es : List (String × Expr)) :
    Expr.NamedOnly P es := by
  match es with
  | [] => trivial
  | (_, e) :: es => exact ⟨Expr.only_of_every every e, Expr.namedOnly_of_every every es⟩

theorem Expr.entriesOnly_of_every (every : ∀ c, P c) (es : List (Expr × Expr)) :
    Expr.EntriesOnly P es := by
  match es with
  | [] => trivial
  | (k, e) :: es =>
    exact ⟨Expr.only_of_every every k, Expr.only_of_every every e,
      Expr.entriesOnly_of_every every es⟩

end

/-- Bodies of the library have no commands in their text. -/
theorem Body.only_of_every (every : ∀ c, P c) (b : Body) : b.Only P := by
  cases b with
  | routine r => trivial
  | script code => exact Expr.allOnly_of_every every code

end Every

/-! ## Laws -/

namespace Conduct

/-- Whatever moves a host keeps to the conduct. -/
class Accepts (K : Conduct) : Prop where
  hereditary : Data.Hereditary K.contents
  all : ∀ {s : Host}, K.course.holds s → s.heap.All K.contents
  moves : ∀ {s t : Host}, K.course.holds s → t.heap.All K.contents → s.Moved K.counts t →
    K.course.holds t ∧ K.course.goes s t

/-- What a conduct allows to a program under a watch, whose bodies run under the conduct `inner`. -/
structure Lawful (K inner : Conduct) (watch : Act → HostM Unit) : Prop extends K.Accepts where
  tireless : K.tireless → inner.tireless
  -- functions are made from permitted text, and that is what their bodies are
  suits : ∀ {b : Body}, b.Only K.permits → b.Suits K.contents
  runs : ∀ {e : Executable}, K.contents (.leaf (.executable e)) →
    ∀ c ∈ e.overloads, c.body.Only K.permits
  -- acts, which the watch is told of
  watched : ∀ act : Act, K.Abides (watch act)
  command : ∀ {c : Command}, K.permits c → c.Resets K.counts →
    K.Abides (do watch (.command c); c.perform)
  -- frames and calls
  enter : ∀ {s t : Host}, K.course.holds s → t.heap.All K.contents → s.Moved K.counts t →
    s.env.stack.depth < t.env.stack.depth → inner.course.holds t.entered
  leave : ∀ {s t u : Host}, K.course.holds s → s.Moved K.counts t →
    s.env.stack.depth < t.env.stack.depth → inner.course.holds u → inner.course.goes t.entered u →
    K.course.holds (u.left.unwind s.env.stack.depth) ∧
    K.course.goes s (u.left.unwind s.env.stack.depth)
  unwind : ∀ {s t : Host}, K.course.holds s → K.course.holds t → K.course.goes s t →
    K.course.holds (t.unwind s.env.stack.depth) ∧ K.course.goes s (t.unwind s.env.stack.depth)

/-- Permitted bodies abide by the conduct `inner`. -/
def Runs (K inner : Conduct) (run : Runner) : Prop :=
  ∀ b : Body, b.Only K.permits → inner.Abides (run.body b)

variable {K : Conduct} {α : Type} {s : Host}

instance [accepts : K.Accepts] : Data.Hereditary K.contents := accepts.hereditary

/-- What moves a host, as what keeps to a conduct. -/
theorem Follows.of_moving [accepts : K.Accepts] {m : HostM α} {Q : α → Host → Prop}
    (held : K.course.holds s) (follows : (moving K.contents K.counts).Follows m s Q) :
    K.Follows m s Q := by
  refine ⟨?_, fun _ => follows.2 trivial⟩
  have narrow : K.course.Leads m s fun a t => Q a t ∧ (Host.motion K.contents K.counts).holds t :=
    follows.1.narrow fun t all moved => accepts.moves held all moved
  exact narrow.weaken fun _ _ _ _ known => known.1

instance (priority := low) Abides.of_moving [accepts : K.Accepts] (m : HostM α)
    [moves : (moving K.contents K.counts).Abides m] : K.Abides m :=
  ⟨fun s held => .of_moving held (moves.follows s (accepts.all held))⟩

/-- An operand, and what is done with its value. -/
theorem Abides.operand [K.Accepts] {step : HostM Yield} {next : Handle → HostM α}
    (first : K.Abides step) (rest : ∀ v, K.Abides (next v)) :
    K.Abides (do let v ← (← step).toHandle; next v) := .bind _ _

/-! ## Sorting and searching -/

section Ordering

variable {before : Before} (asks : ∀ a b : Handle, K.Abides (before a b))

include asks

/-- A merge asks its predicate and does nothing else. -/
theorem abides_mergeInto {a : Handle} {as : List Handle} {rest : List Handle → HostM (List Handle)}
    (merges : ∀ bs, K.Abides (rest bs)) (bs : List Handle) :
    K.Abides (mergeInto before a as rest bs) := by
  induction bs with
  | nil => exact .pure _
  | cons b bs ih => exact .bind _ _

theorem abides_merge (as bs : List Handle) : K.Abides (merge before as bs) := by
  induction as generalizing bs with
  | nil => exact .pure _
  | cons a as ih => exact abides_mergeInto asks ih bs

/-- A sort does nothing but ask its predicate. -/
theorem abides_mergeSortTo (n : Nat) (vs : List Handle) : K.Abides (mergeSortTo before n vs) := by
  induction n generalizing vs with
  | zero => exact .pure _
  | succ n ih =>
    have merged := abides_merge asks
    unfold mergeSortTo
    infer_instance

end Ordering

/-- A search from the front asks about one element after the other. -/
theorem abides_findFrom {equal : Handle → HostM Bool} (asks : ∀ v, K.Abides (equal v)) (i : Int)
    (vs : List Handle) : K.Abides (findFrom equal i vs) := by
  induction vs generalizing i with
  | nil => exact .of _
  | cons v vs ih => exact .bind _ _

/-- A callable that is found is an overload of an executable in the heap. -/
theorem callable_cases (h : Heap) (v : Handle) (arity : Nat) :
    (∃ e c, h.data v = .leaf (.executable e) ∧ c ∈ e.overloads ∧
      HeapM.callable v arity h = .ok c h) ∨ ∃ f, HeapM.callable v arity h = .error f h := by
  unfold HeapM.callable HeapM.ask
  dsimp only
  cases h.data v with
  | leaf l =>
    cases l with
    | executable e =>
      dsimp only
      cases found : e.get? arity with
      | some c => exact .inl ⟨e, c, rfl, List.mem_of_find?_eq_some found, rfl⟩
      | none => exact .inr ⟨_, rfl⟩
    | _ => exact .inr ⟨_, rfl⟩
  | _ => exact .inr ⟨_, rfl⟩

namespace Lawful

variable {inner : Conduct} {run : Runner}

section Calls

variable (law : K.Lawful inner run.watch)

include law

/-! ## Calls -/

/-- The body of a callable that is found is made of permitted text. -/
theorem follows_callable (v : Handle) (arity : Nat) (held : K.course.holds s) :
    K.Follows (onHeap (HeapM.callable v arity)) s fun c _ => c.body.Only K.permits := by
  rcases callable_cases s.heap v arity with ⟨e, c, read, mem, ran⟩ | ⟨f, ran⟩
  · have whole : onHeap (HeapM.callable v arity) s = .ok c s := by simp only [onHeap, ran]
    have known : K.contents (.leaf (.executable e)) := read ▸ law.all held v
    exact .of_ok whole held (K.course.refl s) (law.runs known c mem)
  · have whole : onHeap (HeapM.callable v arity) s = .error (.fault f) s := by
      simp only [onHeap, ran]
    exact .of_fault whole held (K.course.refl s)

section Bodies

variable (bodies : K.Runs inner run)

include bodies

/-- **A call.** Its frame is on top of those that were there, and the body runs one call deeper. -/
theorem abides_execute {c : Callable} (permitted : c.body.Only K.permits) (args : List Handle) :
    K.Abides (execute run c args) := by
  have accepts := law.toAccepts
  refine ⟨fun s held => Follows.lookBind ?_⟩
  split
  · exact .fail held
  have bound := Moving.follows_bindParams K.counts c args (law.all held)
  cases first : bindParams c args s with
  | error e t =>
    obtain ⟨all, moved, ends⟩ := bound.error first
    obtain ⟨held, gone⟩ := law.moves held all moved
    refine .of_error (e := e) (t := t) ?_ held gone fun _ => ends trivial
    simp only [Bind.bind, EStateM.bind, look, first]
  | ok vs t =>
    obtain ⟨all, moved, deeper⟩ := bound.1.ok first
    have inside := (bodies c.body permitted).follows t.entered (law.enter held all moved deeper)
    cases ends : run.body c.body t.entered with
    | ok v u =>
      obtain ⟨heldThen, further, -⟩ := inside.1.ok ends
      obtain ⟨held, gone⟩ := law.leave held moved deeper heldThen further
      refine .of_ok (a := v) (t := u.left.unwind s.env.stack.depth) ?_ held gone trivial
      have counted : counted (run.body c.body) t = .ok v u.left := by
        show always (run.body c.body) Host.left t.entered = _
        simp only [always, ends]
      simp only [Bind.bind, EStateM.bind, look, first, always, counted]
    | error e u =>
      obtain ⟨heldThen, further, up⟩ := inside.error ends
      obtain ⟨held, gone⟩ := law.leave held moved deeper heldThen further
      refine .of_error (e := e) (t := u.left.unwind s.env.stack.depth) ?_ held gone fun tireless =>
        up (law.tireless tireless)
      have counted : counted (run.body c.body) t = .error e u.left := by
        show always (run.body c.body) Host.left t.entered = _
        simp only [always, ends]
      simp only [Bind.bind, EStateM.bind, look, first, always, counted]

/-- A value that is called is looked up among those whose bodies are permitted. -/
theorem abides_callValue (callee : Handle) (args : List Handle) :
    K.Abides (callValue run callee args) :=
  ⟨fun _ held => (law.follows_callable callee args.length held).bind fun _ t held _ permitted =>
    (law.abides_execute bodies permitted args).follows t held⟩

theorem abides_call (name : String) (args : List Handle) : K.Abides (call run name args) := by
  refine ⟨fun s held => ?_⟩
  have resolved : K.Follows (resolve name args.length) s fun c _ => c.body.Only K.permits := by
    refine Follows.lookBind ?_
    cases s.scope.lookupOverload name args.length with
    | ok v => exact law.follows_callable v args.length held
    | error f => exact .fail held
  exact resolved.bind fun _ t held _ permitted =>
    (law.abides_execute bodies permitted args).follows t held

/-! ## Handlers -/

/-- Handlers are called like any other value. -/
theorem abides_offer (report : Handle) (handlers : List Handle) :
    K.Abides (offer run report handlers) := by
  have accepts := law.toAccepts
  have called := law.abides_callValue bodies
  induction handlers with
  | nil => exact .pure _
  | cons handler rest ih =>
    unfold offer handlerArgs
    infer_instance

/-- What handlers are told is made before they are called. -/
theorem abides_invokeHandlers (kind : FaultKind) (location message : String) :
    K.Abides (invokeHandlers run kind location message) := by
  have accepts := law.toAccepts
  have offered := law.abides_offer bodies
  refine ⟨fun s held => Follows.lookBind ?_⟩
  split
  · exact .pure held trivial
  · exact Abides.follows s held

/-- **A statement under guard.** Its frames are dropped before its fault is offered to the
handlers. -/
theorem abides_guard (location : String) (statement : HostM Handle) [step : K.Abides statement] :
    K.Abides (HostM.guard run location statement) := by
  have accepts := law.toAccepts
  refine ⟨fun s held => ?_⟩
  have follows := step.follows s held
  -- the frames that a failed statement leaves are dropped before anything else is done
  have back : ∀ {f : Fault} {t : Host}, statement s = .error (.fault f) t →
      K.course.holds (t.unwind s.env.stack.depth) ∧
      K.course.goes s (t.unwind s.env.stack.depth) := by
    intro f t ends
    obtain ⟨heldThen, gone, -⟩ := follows.error ends
    exact law.unwind held heldThen gone
  obtain ⟨r, whole⟩ : ∃ r, HostM.guard run location statement s = r := ⟨_, rfl⟩
  cases guardEnds whole with
  | yields ends =>
    obtain ⟨held, gone, -⟩ := follows.1.ok ends
    exact .of_ok whole held gone trivial
  | exhausted ends =>
    obtain ⟨held, gone, up⟩ := follows.error ends
    exact .of_error whole held gone up
  | passes ends _ =>
    obtain ⟨held, gone⟩ := back ends
    exact .of_fault whole held gone
  | accepted ends _ answer =>
    obtain ⟨held, gone⟩ := back ends
    obtain ⟨held, further, -⟩ :=
      ((law.abides_invokeHandlers bodies _ location _).follows _ held).1.ok answer
    have null : K.Follows (onHeap HeapM.newNull) _ fun _ _ => True := Abides.follows _ held
    exact null.continued whole (K.course.trans gone further)
  | declined ends _ answer =>
    obtain ⟨held, gone⟩ := back ends
    obtain ⟨held, further, -⟩ :=
      ((law.abides_invokeHandlers bodies _ location _).follows _ held).1.ok answer
    exact .of_fault whole held (K.course.trans gone further)
  | fails ends _ answer =>
    obtain ⟨held, gone⟩ := back ends
    obtain ⟨held, further, up⟩ :=
      ((law.abides_invokeHandlers bodies _ location _).follows _ held).error answer
    exact .of_error whole held (K.course.trans gone further) up

omit bodies in
/-- An outcome drops frames. Only to give up goes through it. -/
theorem abides_outcome (body : HostM Handle) [step : K.Abides body] : K.Abides (outcome body) := by
  refine ⟨fun s held => ?_⟩
  have follows := step.follows s held
  obtain ⟨r, whole⟩ : ∃ r, outcome body s = r := ⟨_, rfl⟩
  cases runEnds whole with
  | completed ends =>
    obtain ⟨heldThen, gone, -⟩ := follows.1.ok ends
    obtain ⟨held, gone⟩ := law.unwind held heldThen gone
    exact .of_ok whole held gone trivial
  | exhausted ends =>
    obtain ⟨held, gone, up⟩ := follows.error ends
    exact .of_error whole held gone up
  | terminated ends _ | aborted ends _ =>
    obtain ⟨heldThen, gone, -⟩ := follows.error ends
    obtain ⟨held, gone⟩ := law.unwind held heldThen gone
    exact .of_ok whole held gone trivial

/-! ## Routines -/

/-- A predicate is a call and the reading of a Boolean. -/
theorem abides_holds (predicate a b : Handle) : K.Abides (HostM.holds run predicate a b) := by
  have accepts := law.toAccepts
  have called := law.abides_callValue bodies predicate [a, b]
  exact .bind _ _

theorem abides_sort (array before : Handle) : K.Abides (HostM.sort run array before) := by
  have accepts := law.toAccepts
  have sorted : ∀ vs, K.Abides (mergeSort (HostM.holds run before) vs) :=
    fun vs => abides_mergeSortTo (law.abides_holds bodies before) vs.length vs
  exact .bind _ _

theorem abides_find (array elem equal : Handle) : K.Abides (HostM.find run array elem equal) := by
  have accepts := law.toAccepts
  have found := fun (i : Int) => abides_findFrom (fun v => law.abides_holds bodies equal v elem) i
  exact .bind _ _

/-- A binary search asks twice for each halving. -/
theorem abides_searchTo (array elem before : Handle) (n : Nat) (low high : Int) :
    K.Abides (searchTo run array elem before n low high) := by
  have accepts := law.toAccepts
  have asks := law.abides_holds bodies before
  induction n generalizing low high with
  | zero => exact .of _
  | succ n ih =>
    unfold searchTo
    infer_instance

theorem abides_findSorted (array elem before : Handle) :
    K.Abides (HostM.findSorted run array elem before) := by
  have accepts := law.toAccepts
  have searched := law.abides_searchTo bodies array elem before
  exact .bind _ _

omit bodies in
theorem abides_operate (op : Binary) (a b : Handle) : K.Abides (operate run.watch op a b) := by
  have accepts := law.toAccepts
  have watched := law.watched
  exact .bind _ _

/-- **Routines** of the library: those that call back do so by the bodies of the runner, all others
move the host. -/
theorem abides_perform (r : Routine) : K.Abides (r.perform run) := by
  have accepts := law.toAccepts
  have operated := law.abides_operate
  have sorted := law.abides_sort bodies
  have found := law.abides_find bodies
  have searched := law.abides_findSorted bodies
  have invoked := law.abides_invokeHandlers bodies
  cases r with
  | numeralOf =>
    refine ⟨fun s held => (Abides.follows s held).bind fun v t held _ _ =>
      (Abides.follows t held).bind fun text u held _ _ => ?_⟩
    cases read : numeral text with
    | ok l =>
      have plain := Moving.plain_of_numeral read
      have answered : K.Abides (Routine.answer l) := inferInstance
      exact answered.follows u held
    | error f => exact .fail held
  | _ =>
    dsimp only [Routine.perform]
    infer_instance

end Bodies

end Calls

/-! ## Expressions -/

mutual

/-- **Expressions** with permitted commands abide by the conduct, one case for each form. Functions
are made from permitted text, so that what is called later is permitted. -/
theorem abides_eval (law : K.Lawful inner run.watch) (bodies : K.Runs inner run) (e : Expr)
    (only : e.Only K.permits) : K.Abides (e.eval run) := by
  have accepts := law.toAccepts
  have watched := law.watched
  cases e with
  | literal _ | ask _ | raise _ | held _ =>
    unfold Expr.eval
    infer_instance
  | command c =>
    by_cases resets : c.Resets K.counts
    · exact law.command only resets
    · have moved : K.Abides c.perform :=
        have := Moving.command (D := K.contents) resets
        inferInstance
      exact .bind _ _
  | unary op e => exact .operand (law.abides_eval bodies e only) fun _ => inferInstance
  | binary op a b =>
    refine .operand (law.abides_eval bodies a only.1) fun x =>
      .operand (law.abides_eval bodies b only.2) fun y => ?_
    exact law.abides_operate op x y
  | insertKey t k e =>
    refine .operand (law.abides_eval bodies t only.1) fun target =>
      .operand (law.abides_eval bodies k only.2.1) fun key => ?_
    exact .operand (law.abides_eval bodies e only.2.2) fun v => inferInstance
  | setElements t es =>
    have rest := law.abides_evalAll bodies es only.2
    exact .operand (law.abides_eval bodies t only.1) fun target => .bind _ _
  | bind place e => exact .operand (law.abides_eval bodies e only) fun v => .bind _ _
  | array start es policy =>
    have each := law.abides_evalAll bodies es only
    have made : ∀ vs,
        (Heap.all K.contents).KeptBy (HeapM.new (.array (.ofItems start vs policy))) :=
      fun _ => HeapM.inherits_new (accepts.hereditary.array _)
    unfold Expr.eval
    infer_instance
  | dictionary entries =>
    have made : (Heap.all K.contents).KeptBy (HeapM.new (.dictionary .empty)) :=
      HeapM.inherits_new accepts.hereditary.noEntries
    have put := fun d => law.abides_evalEntries bodies d entries only
    unfold Expr.eval
    infer_instance
  | record members =>
    have each := law.abides_evalNamed bodies members only
    have made : ∀ ms, (Heap.all K.contents).KeptBy (HeapM.new (.record (.ofMembers ms))) :=
      fun ms => HeapM.inherits_new (accepts.hereditary.record _ (Record.nodup_names_ofMembers ms))
    unfold Expr.eval
    infer_instance
  | function name params body =>
    have suits : (Body.script body).Suits K.contents := law.suits only
    have made := HeapM.inherits_newFunction suits name params
    unfold Expr.eval
    infer_instance
  | hold register e => exact .operand (law.abides_eval bodies e only) fun v => .bind _ _
  | sequence es =>
    unfold Expr.eval
    exact law.abides_evalLast bodies es only
  | times n e =>
    have each := law.abides_eval bodies e only
    unfold Expr.eval
    infer_instance
  | branch c a b =>
    have first := law.abides_eval bodies a only.2.1
    have second := law.abides_eval bodies b only.2.2
    exact .operand (law.abides_eval bodies c only.1) fun v => .bind _ _
  | attempt e =>
    have tried := law.abides_eval bodies e only
    unfold Expr.eval
    infer_instance
  | log e =>
    have told := law.abides_eval bodies e only
    unfold Expr.eval
    infer_instance
  | call name args =>
    have given := law.abides_evalAll bodies args only
    have called := law.abides_call bodies name
    unfold Expr.eval
    infer_instance
  | callValue f args =>
    have given := law.abides_evalAll bodies args only.2
    have called := law.abides_callValue bodies
    exact .operand (law.abides_eval bodies f only.1) fun callee => .bind _ _
  | callStates name args =>
    have given := law.abides_evalAll bodies args only
    unfold Expr.eval
    infer_instance
  | guard location body =>
    have statement := law.abides_evalBody bodies body only
    have guarded := law.abides_guard bodies location (Expr.evalBody run body)
    unfold Expr.eval
    infer_instance
  | run body =>
    have part := law.abides_evalBody bodies body only
    have ended := law.abides_outcome (Expr.evalBody run body)
    refine ⟨fun s held => (ended.follows s held).bind fun o t held _ _ => ?_⟩
    cases o with
    | completed v => exact Abides.follows t held
    | aborted f => exact .pure held trivial
    | terminated => exact .pure held trivial
  | invokeHandlers kind location message =>
    have invoked := law.abides_invokeHandlers bodies kind location message
    unfold Expr.eval
    infer_instance
  | scope env bindings keys =>
    have given := law.abides_evalNamed bodies bindings only
    unfold Expr.eval
    infer_instance

/-- Expressions in a row. -/
theorem abides_evalAll (law : K.Lawful inner run.watch) (bodies : K.Runs inner run) (es : List Expr)
    (only : Expr.AllOnly K.permits es) : K.Abides (Expr.evalAll run es) := by
  have accepts := law.toAccepts
  match es with
  | [] => exact .pure _
  | e :: es =>
    have rest := law.abides_evalAll bodies es only.2
    exact .operand (law.abides_eval bodies e only.1) fun v => .bind _ _

theorem abides_evalNamed (law : K.Lawful inner run.watch) (bodies : K.Runs inner run)
    (es : List (String × Expr)) (only : Expr.NamedOnly K.permits es) :
    K.Abides (Expr.evalNamed run es) := by
  have accepts := law.toAccepts
  match es with
  | [] => exact .pure _
  | (_, e) :: es =>
    have rest := law.abides_evalNamed bodies es only.2
    exact .operand (law.abides_eval bodies e only.1) fun v => .bind _ _

/-- Entries of a dictionary, key before value. -/
theorem abides_evalEntries (law : K.Lawful inner run.watch) (bodies : K.Runs inner run)
    (target : Handle) (es : List (Expr × Expr)) (only : Expr.EntriesOnly K.permits es) :
    K.Abides (Expr.evalEntries run target es) := by
  have accepts := law.toAccepts
  match es with
  | [] => exact .pure _
  | (k, e) :: es =>
    have rest := law.abides_evalEntries bodies target es only.2.2
    exact .operand (law.abides_eval bodies k only.1) fun key =>
      .operand (law.abides_eval bodies e only.2.1) fun v => .bind _ _

theorem abides_evalLast (law : K.Lawful inner run.watch) (bodies : K.Runs inner run)
    (es : List Expr) (only : Expr.AllOnly K.permits es) : K.Abides (Expr.evalLast run es) := by
  have accepts := law.toAccepts
  match es with
  | [] => exact .pure _
  | [e] => exact law.abides_eval bodies e only.1
  | e :: e' :: es =>
    have first := law.abides_eval bodies e only.1
    have rest := law.abides_evalLast bodies (e' :: es) only.2
    exact .bind _ _

/-- A body, whose value is that of its last expression. -/
theorem abides_evalBody (law : K.Lawful inner run.watch) (bodies : K.Runs inner run)
    (es : List Expr) (only : Expr.AllOnly K.permits es) : K.Abides (Expr.evalBody run es) := by
  have accepts := law.toAccepts
  match es with
  | [] =>
    unfold Expr.evalBody
    infer_instance
  | [e] =>
    have first := law.abides_eval bodies e only.1
    exact .bind _ _
  | e :: e' :: es =>
    exact .operand (law.abides_eval bodies e only.1) fun _ =>
      law.abides_evalBody bodies (e' :: es) only.2

end

/-! ## Levels -/

/-- **One more level.** A body abides by a conduct if those that it calls abide by the inner one. -/
theorem abides_body {watch : Act → HostM Unit} {levels : Nat} (law : K.Lawful inner watch)
    (bodies : ∀ b : Body, b.Only K.permits → inner.Abides (runBody watch levels b)) {b : Body}
    (only : b.Only K.permits) : K.Abides (runBody watch (levels + 1) b) := by
  have fits : K.Lawful inner (Runner.watched watch levels).watch := law
  cases b with
  | routine r => exact fits.abides_perform bodies r
  | script code => exact fits.abides_evalBody bodies code only

/-- Calls nested to any depth, where one conduct is for all of them and may give up. -/
theorem abides_watched {watch : Act → HostM Unit} (law : K.Lawful K watch) (tires : ¬ K.tireless)
    (levels : Nat) {e : Expr} (only : e.Only K.permits) :
    K.Abides (e.eval (.watched watch levels)) := by
  have bodies : ∀ b : Body, b.Only K.permits → K.Abides (runBody watch levels b) := by
    induction levels with
    | zero =>
      intro b _
      exact ⟨fun s held => .of_error rfl held (K.course.refl s) fun tireless =>
        absurd tireless tires⟩
    | succ n ih => exact fun b only => law.abides_body ih only
  have fits : K.Lawful K (Runner.watched watch levels).watch := law
  exact fits.abides_eval bodies e only

end Lawful

/-! ## The start of a host -/

namespace Moving

variable {D : Data Handle → Prop} [law : Data.Hereditary D] {counts : EnvName → Prop}

omit law in
instance bindPlain (name : String) (v : Handle) :
    (moving D counts).Abides (Library.bindPlain name v) := insertPlain _ _ _

/-- The constants of the library are no executables. -/
theorem installConstant {name : String} {l : Leaf} (plain : l.Plain) :
    (moving D counts).Abides (Library.installConstant name l) := by
  have made : (Heap.all D).KeptBy (HeapM.alloc ⟨.leaf l, true⟩) := HeapM.inherits_alloc (law.leaf l)
  exact .bind _ _

theorem installRoutine {r : Routine} (suits : (Body.routine r).Suits D) :
    (moving D counts).Abides (Library.installRoutine r) := by
  have made := HeapM.inherits_newFunction suits
  unfold Library.installRoutine
  infer_instance

/-- The library is made of values that are no executables, and of routines. -/
theorem install (suits : ∀ r : Routine, (Body.routine r).Suits D) :
    (moving D counts).Abides Library.install := by
  have kinds : ∀ p ∈ Library.constants, p.2.kind ≠ .executable := by decide
  have routine (r) : (moving D counts).Abides (Library.installRoutine r) := installRoutine (suits r)
  have synonym : ∀ plain name, (moving D counts).Abides (Library.installAlias plain name) :=
    fun _ _ => .bind _ _
  have version : (moving D counts).Abides Library.installVersion := .bind _ _
  unfold Library.install
  refine @Abides.bind _ _ _ _ _ (.forM_mem fun p mem => ?_) fun _ => inferInstance
  exact installConstant ⟨kinds p mem⟩

end Moving

end Conduct

end ScriptHost
