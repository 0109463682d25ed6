import ScriptHost.Eval.Expr
import ScriptHost.Proofs.Heap.Lasting
import ScriptHost.Proofs.Host.Endings

/-!
# Regimes: what every evaluation keeps to

A regime is a course of hosts together with the values that a program may use in each of them.
`Regime.Lawful` lists what a regime has to allow: the operations on the heap, what the host looks
up, and the few steps by which an evaluation changes the rest of the state. Whatever is lawful is
kept to by every evaluation, whatever the program: this module has the calls, the handlers and the
guards, given that the bodies they run keep to the regime.

The laws speak of a watch, because a regime may hold only as long as a program is kept from certain
acts.
-/

set_option autoImplicit false

namespace ScriptHost

open HostM Course

/-- A course of hosts, with the values that a program may use in each of them. -/
structure Regime where
  course : Course Host
  uses : Host → Handle → Prop

/-- The bodies that a runner runs keep to the regime, and what they yield may be used. -/
def Regime.Runs (G : Regime) (run : Runner) : Prop :=
  ∀ (b : Body) (s : Host), G.course.holds s → G.course.Leads (run.body b) s fun v t => G.uses t v

/-- Every value of a yield has a property. -/
def Yield.All (V : Handle → Prop) : Yield → Prop
  | .value v => V v
  | .report _ => True

/-- One more call in progress. -/
def Host.entered (s : Host) : Host := { s with callDepth := s.callDepth + 1 }

/-- One call less in progress. -/
def Host.left (s : Host) : Host := { s with callDepth := s.callDepth - 1 }

/-! ## What courses may take no notice of -/

/-- The random stream and the log do not count. -/
def Course.Aside (C : Course Host) : Prop :=
  ∀ (s : Host) (stream : RandomStream) (log : List Report), C.holds s →
  C.holds { s with stream := stream, log := log } ∧ C.goes s { s with stream := stream, log := log }

/-- Neither the handlers nor the interrupt flag count. -/
def Course.Unguarded (C : Course Host) : Prop :=
  ∀ (s : Host) (handlers : List (FaultKind × Handle)) (interrupted : Bool),
  C.holds s → C.holds { s with handlers := handlers, interrupted := interrupted } ∧
    C.goes s { s with handlers := handlers, interrupted := interrupted }

namespace Course

variable {C : Course Host} {s : Host}

/-- A draw moves the stream on, or is refused. -/
theorem Aside.leads_tryDraw {α : Type} {f : RandomStream → Except Fault α} (aside : C.Aside)
    (held : C.holds s) : C.Leads (Routine.tryDraw f) s fun _ _ => True := by
  obtain ⟨after, gone⟩ := aside s s.stream.advance s.log held
  cases drawn : f s.stream with
  | ok a =>
    have run : Routine.tryDraw f s = .ok a { s with stream := s.stream.advance } := by
      simp only [Routine.tryDraw, drawn]
    exact .of_ok run after gone trivial
  | error e =>
    have run : Routine.tryDraw f s = .error (.fault e) s := by simp only [Routine.tryDraw, drawn]
    exact .of_error run held (C.refl s)

/-- A draw moves the random stream only. -/
theorem Aside.leads_draw {α : Type} {f : RandomStream → α} (aside : C.Aside) (held : C.holds s) :
    C.Leads (Routine.draw f) s fun _ _ => True :=
  aside.leads_tryDraw (f := fun r => .ok (f r)) held

/-- So do the commands that draw, whatever they report. -/
theorem Aside.leads_perform (aside : C.Aside) (d : Draw) (V : Host → Handle → Prop)
    (held : C.holds s) : C.Leads d.perform s fun y t => y.All (V t) := by
  cases d with
  | reseed seed =>
    obtain ⟨after, gone⟩ := aside s (.ofSeed seed) s.log held
    exact .of_ok rfl after gone trivial
  | state => exact Leads.hostLookBind (.pure held trivial)
  | word | uniform | real | boolean | integer | realBetween _ _ =>
    exact (aside.leads_draw held).bind fun _ _ held _ _ => .pure held trivial
  | below _ | between _ _ =>
    exact (aside.leads_tryDraw held).bind fun _ _ held _ _ => .pure held trivial

/-- A handler is refused, or put on top of those of its kind. -/
theorem Unguarded.leads_pushHandler {kind : FaultKind} {v : Handle} (unguarded : C.Unguarded)
    (held : C.holds s) : C.Leads (HostM.pushHandler kind v) s fun _ _ => True := by
  unfold HostM.pushHandler
  split
  · exact Leads.fail held
  refine Leads.hostHeapLookBind ?_
  split
  · exact Leads.fail held
  · obtain ⟨after, gone⟩ := unguarded s ((kind, v) :: s.handlers) s.interrupted held
    exact Leads.change after gone trivial

/-- Dropping a handler changes the handlers only. -/
theorem Unguarded.leads_popHandler {kind : FaultKind} (unguarded : C.Unguarded) (held : C.holds s) :
    C.Leads (HostM.popHandler kind) s fun _ _ => True := by
  obtain ⟨after, gone⟩ := unguarded s (s.handlers.eraseP (·.1 = kind)) s.interrupted held
  exact .of_ok rfl after gone trivial

/-! ## Frames for a while -/

section Frames

variable {env : EnvName} (reads : ∀ t, C.holds t → C.Leads (environment env) t fun _ _ => True)

include reads

theorem leads_depthOf (held : C.holds s) : C.Leads (depthOf env) s fun _ _ => True :=
  (reads s held).bind fun _ _ held _ _ => .pure held trivial

theorem leads_foundReport {key : String} (held : C.holds s) :
    C.Leads (foundReport env key) s fun _ _ => True := by
  have scope : C.Leads (HostM.scope env) s fun _ _ => True :=
    (reads s held).bind fun _ _ held _ _ => Leads.hostLook held trivial
  refine scope.bind fun e t held _ _ => ?_
  split
  · exact Leads.hostLook held trivial
  · exact .pure held trivial

/-- What is done inside of a frame to report on it, given that another frame can be put on top for a
while. -/
theorem leads_scopeBody {bindings : List (String × Handle)} {keys : List String} (held : C.holds s)
    (binds : ∀ b ∈ bindings, ∀ t, C.holds t → C.goes s t →
      C.Leads (Place.bind b.2 (.symbol env b.1)) t fun _ _ => True)
    (inner : ∀ t, C.holds t → C.Leads (framed env (depthOf env)) t fun _ _ => True) :
    C.Leads (do
      bindings.forM fun (key, v) => Place.bind v (.symbol env key)
      let depth ← depthOf env
      let inner ← innerReport env
      let found ← keys.mapM (foundReport env)
      return (.report (.record [("depth", .number depth), ("inner", inner),
        ("found", .list found)]) : Yield)) s
      fun y _ => ∃ r, y = .report r := by
  have innerReport : ∀ t, C.holds t → C.Leads (innerReport env) t fun _ _ => True := by
    intro t held
    have step := inner t held
    cases ends : framed env (depthOf env) t with
    | ok n u =>
      obtain ⟨held, gone, _⟩ := step.ok ends
      have run : HostM.innerReport env t = .ok (.number n) u := by
        simp only [HostM.innerReport, ends]
      exact .of_ok run held gone trivial
    | error halt u =>
      obtain ⟨held, gone⟩ := step.error ends
      cases halt with
      | fault f =>
        have run : HostM.innerReport env t = .ok (.fault f) u := by
          simp only [HostM.innerReport, ends]
        exact .of_ok run held gone trivial
      | exhausted =>
        have run : HostM.innerReport env t = .error .exhausted u := by
          simp only [HostM.innerReport, ends]
        exact .of_error run held gone
  refine (Leads.forM held fun b mem t held gone => binds b mem t held gone).bind
    fun _ t held _ _ => ?_
  refine (leads_depthOf reads held).bind fun depth u held _ _ =>
    (innerReport u held).bind fun inner w held _ _ => ?_
  refine (Leads.mapM (R := fun _ _ => True) (fun _ _ _ _ _ => trivial) held fun _ _ _ held _ =>
    leads_foundReport reads held).bind fun found x held _ _ => .pure held ⟨_, rfl⟩

end Frames

/-- **A frame for a while.** The step inside keeps to a course `D` of its own, from which dropping
the frame leads back. -/
theorem leads_framed {D : Course Host} {α : Type} {env : EnvName} {step : HostM α} {Q : α → Prop}
    (push : C.Leads (onScope env (Scope.push .empty)) s fun _ t => D.holds t)
    (inner : ∀ t, D.holds t → C.goes s t → D.Leads step t fun a _ => Q a)
    (pop : ∀ t u, C.goes s t → D.holds u → D.goes t u →
      C.holds (endState (popFrame env) u) ∧ C.goes s (endState (popFrame env) u)) :
    C.Leads (framed env step) s fun a _ => Q a := by
  cases pushed : onScope env (Scope.push .empty) s with
  | error e t =>
    obtain ⟨held, gone⟩ := push.error pushed
    have run : framed env step s = .error e t := by
      simp only [framed, Bind.bind, EStateM.bind, pushed]
    exact .of_error run held gone
  | ok a t =>
    obtain ⟨_, gone, held⟩ := push.ok pushed
    have within := inner t held gone
    cases ends : step t with
    | ok a u =>
      obtain ⟨heldThen, further, result⟩ := within.ok ends
      obtain ⟨held, gone⟩ := pop t u gone heldThen further
      cases popped : popFrame env u with
      | ok b w =>
        simp only [endState, popped] at held gone
        have run : framed env step s = .ok a w := by
          simp only [framed, Bind.bind, EStateM.bind, pushed, ends, popped]
        exact .of_ok run held gone result
      | error e w =>
        simp only [endState, popped] at held gone
        have run : framed env step s = .error e w := by
          simp only [framed, Bind.bind, EStateM.bind, pushed, ends, popped]
        exact .of_error run held gone
    | error e u =>
      obtain ⟨heldThen, further⟩ := within.error ends
      obtain ⟨held, gone⟩ := pop t u gone heldThen further
      have run : framed env step s = .error e (endState (popFrame env) u) := by
        cases popped : popFrame env u <;>
          simp only [framed, Bind.bind, EStateM.bind, pushed, ends, popped, endState]
      exact .of_error run held gone

/-! ## Acts under a watch -/

/-- An act is carried out if the watch lets it pass. -/
theorem leads_act {α : Type} {watch : Act → HostM Unit} {act : Act} {step : HostM α}
    {allowed : Prop} {R : α → Host → Prop}
    (watched : (watch act s = .ok () s ∧ allowed) ∨ ∃ e, watch act s = .error e s)
    (held : C.holds s) (leads : allowed → C.Leads step s R) : C.Leads (do watch act; step) s R := by
  obtain ⟨passes, fine⟩ | ⟨e, ends⟩ := watched
  · refine (leads fine).continued ?_ (C.refl s)
    simp only [Bind.bind, EStateM.bind, passes]
  · have run : (do watch act; step) s = .error e s := by simp only [Bind.bind, EStateM.bind, ends]
    exact .of_error run held (C.refl s)

/-! ## Frames of calls -/

/-- Arguments are bound by steps over the heap alone. -/
theorem leads_bindings {params : List Param} {args : List Handle}
    (heap : ∀ {α : Type} (m : HeapM α) (t : Host), C.holds t → C.Leads (onHeap m) t fun _ _ => True)
    (held : C.holds s) : C.Leads (HostM.bindings params args) s fun _ _ => True := by
  refine (Leads.mapM (R := fun _ _ => True) (fun _ _ _ _ _ => trivial) held
    fun (p, a) _ t held _ => ?_).weaken fun _ _ _ _ _ => trivial
  have bound : C.Leads (bound p.mode a) t fun _ _ => True := by
    cases p.mode with
    | reference => exact .pure held trivial
    | value => exact heap _ t held
  exact bound.bind fun _ _ held _ _ => .pure held trivial

/-- Putting the bindings of a frame together changes nothing. -/
theorem leads_frame {bindings : List (Symbol × Handle)} (held : C.holds s) :
    C.Leads (HostM.frame bindings) s fun f _ =>
      ∃ t, SymbolTable.load bindings .empty = .ok t f := by
  unfold HostM.frame
  split
  next t f loaded => exact .pure held ⟨t, loaded⟩
  · exact Leads.fail held

end Course

/-! ## Laws -/

/-- What a regime allows to operations on values: all that are sound for the values that may be used
and let executables last. -/
structure Regime.HeapLawful (G : Regime) : Prop where
  lasts : ∀ {s t : Host} {v : Handle}, G.uses s v → G.course.goes s t → G.uses t v
  heap : ∀ {α : Type} {m : HeapM α} [m.Lasting] {given : List Handle}
    {yields : α → List Handle} {s : Host}, m.Sound given yields → G.course.holds s →
    (∀ v ∈ given, G.uses s v) → G.course.Leads (onHeap m) s fun a t => ∀ v ∈ yields a, G.uses t v

/-- What a regime allows to a program under a watch. -/
structure Regime.Lawful (G : Regime) (watch : Act → HostM Unit) : Prop extends G.HeapLawful where
  -- what is looked up may be used
  found : ∀ {s : Host} {key : String} {v : Handle}, G.course.holds s →
    s.scope.lookup key = .ok v → G.uses s v
  overload : ∀ {s : Host} {key : String} {arity : Nat} {v : Handle}, G.course.holds s →
    s.scope.lookupOverload key arity = .ok v → G.uses s v
  register : ∀ {s : Host} {name : String} {v : Handle}, G.course.holds s →
    Named.find name s.registers = some v → G.uses s v
  -- changes to the rest of the state
  aside : G.course.Aside
  hold : ∀ {s : Host} {name : String} {v : Handle}, G.course.holds s → G.uses s v →
    G.course.Leads (HostM.hold name v) s fun _ _ => True
  pushHandler : ∀ {s : Host} {kind : FaultKind} {v : Handle}, G.course.holds s → G.uses s v →
    G.course.Leads (HostM.pushHandler kind v) s fun _ _ => True
  popHandler : ∀ {s : Host} {kind : FaultKind}, G.course.holds s →
    G.course.Leads (HostM.popHandler kind) s fun _ _ => True
  -- acts, which the watch is told of
  command : ∀ {s : Host} (c : Command), G.course.holds s →
    G.course.Leads (do watch (.command c); c.perform) s fun y t => y.All (G.uses t)
  bind : ∀ {s : Host} {v : Handle} (place : Place), G.course.holds s → G.uses s v →
    G.course.Leads (do watch (.bind place); effect (place.bind v)) s fun y t => y.All (G.uses t)
  operate : ∀ {s : Host} {a b : Handle} (op : Binary), G.course.holds s → G.uses s a → G.uses s b →
    G.course.Leads (HostM.operate watch op a b) s fun y t => y.All (G.uses t)
  setElements : ∀ {s : Host} {target : Handle} {items : List Handle}, G.course.holds s →
    G.uses s target → (∀ v ∈ items, G.uses s v) →
    G.course.Leads
      (do watch (.setElements target items); heapEffect (HeapM.setElements target items)) s
      fun y t => y.All (G.uses t)
  -- elements that an array had earlier can be put into it again
  restore : ∀ {s t : Host} {array : Handle} {a : Sequence Handle} {items : List Handle},
    G.course.holds s → s.heap.data array = .array a → (∀ v ∈ items, v ∈ a.items) →
    G.course.goes s t → G.course.holds t → G.uses t array →
    (∀ v ∈ items, G.uses t v) →
    G.course.Leads (onHeap (HeapM.setElements array items)) t fun _ _ => True
  -- frames and calls
  enter : ∀ {s : Host} {c : Callable} {args : List Handle}, G.course.holds s →
    (∀ v ∈ args, G.uses s v) → G.course.Leads (bindParams c args) s fun _ _ => True
  counted : ∀ {s : Host}, G.course.holds s → G.course.holds s.entered ∧
    ∀ {t : Host}, G.course.holds t → G.course.goes s.entered t →
      G.course.holds t.left ∧ G.course.goes s t.left ∧ ∀ v, G.uses t v → G.uses t.left v
  unwind : ∀ {s t : Host}, G.course.holds s → G.course.holds t → G.course.goes s t →
    G.course.holds (t.unwind s.env.stack.depth) ∧ G.course.goes s (t.unwind s.env.stack.depth) ∧
      ∀ v, G.uses t v → G.uses (t.unwind s.env.stack.depth) v
  callStates : ∀ {s : Host} {name : String} {args : List Handle}, G.course.holds s →
    (∀ v ∈ args, G.uses s v) → G.course.Leads (HostM.callStates name args) s fun y t =>
      y.All (G.uses t)
  scopes : ∀ {s : Host} {env : EnvName} {bindings : List (String × Handle)} {keys : List String},
    G.course.holds s → (∀ v ∈ bindings.map (·.2), G.uses s v) →
    G.course.Leads (scopeReports env bindings keys) s fun y t => y.All (G.uses t)

/-! ## Operations over the heap that only calls make -/

namespace Heap

/-- To find a callable is to look. -/
theorem sound_callable {v : Handle} {arity : Nat} : (HeapM.callable v arity).Sound [] fun _ => [] :=
  sound_ask

instance lasting_callable {v : Handle} {arity : Nat} : (HeapM.callable v arity).Lasting := by
  unfold HeapM.callable
  infer_instance

instance lasting_errorReport {location message : String} :
    (errorReport location message).Lasting := by
  have set : ∀ report name text, (setText report name text).Lasting :=
    fun _ _ _ => HeapM.lasting_setMember (by simp [Leaf.kind])
  unfold errorReport
  infer_instance

/-- The structure that describes a fault is made of new cells. -/
theorem sound_errorReport {location message : String} :
    (errorReport location message).Sound [] fun v => [v] := by
  intro typed P h region _
  have text : ∀ {s : String}, (Data.leaf (.string s) : Data Handle).Fits :=
    Data.fits_of_not_integer (by simp [Leaf.kind])
  refine (sound_declare errorType P h region (by simp)).bind fun r t state _ made => ?_
  have owned := made r (by simp)
  refine (leads_setMember state owned text).bind fun _ t state gone _ => ?_
  have owned := owned.changes gone
  refine (leads_setMember state owned text).bind fun _ t state gone _ => ?_
  exact .pure state (by simpa using owned.changes gone)

end Heap

/-! ## Steps over the heap -/

namespace Regime.HeapLawful

variable {G : Regime} (law : G.HeapLawful) {s : Host}

include law

/-- A step over the heap that yields one value. -/
theorem heapValue {m : HeapM Handle} [m.Lasting] {given : List Handle}
    (sound : m.Sound given fun v => [v]) (held : G.course.holds s)
    (used : ∀ v ∈ given, G.uses s v) : G.course.Leads (onHeap m) s fun v t => G.uses t v :=
  (law.heap sound held used).weaken fun v _ _ _ result => result v (by simp)

/-- A step over the heap that yields no value. -/
theorem heapPlain {α : Type} {m : HeapM α} [m.Lasting] {given : List Handle}
    (sound : m.Sound given fun _ => []) (held : G.course.holds s) (used : ∀ v ∈ given, G.uses s v) :
    G.course.Leads (onHeap m) s fun _ _ => True :=
  (law.heap sound held used).weaken fun _ _ _ _ _ => trivial

/-- A question about the heap. -/
theorem heapAsk {α : Type} {f : Heap → Except Fault α} (held : G.course.holds s) :
    G.course.Leads (onHeap (HeapM.ask f)) s fun _ _ => True :=
  law.heapPlain Heap.sound_ask held (by simp)

/-- A look at the heap. -/
theorem heapLook {α : Type} {f : Heap → α} (held : G.course.holds s) :
    G.course.Leads (onHeap (HeapM.look f)) s fun _ _ => True :=
  law.heapPlain Heap.sound_look held (by simp)

theorem heapNull (held : G.course.holds s) :
    G.course.Leads (onHeap HeapM.newNull) s fun v t => G.uses t v :=
  law.heapValue Heap.sound_newNull held (by simp)

/-- A new leaf may be used by whoever has made it. -/
theorem heapLeaf {l : Leaf} (fits : (Data.leaf l : Data Handle).Fits) (held : G.course.holds s) :
    G.course.Leads (onHeap (HeapM.newLeaf l)) s fun v t => G.uses t v :=
  law.heapValue (Heap.sound_newLeaf fits) held (by simp)

end Regime.HeapLawful

namespace Regime.Lawful

variable {G : Regime} {watch : Act → HostM Unit} (law : G.Lawful watch) {s : Host}

include law

/-! ## Lookup -/

/-- What comes after the lookup of a parameter starts in the same state, with a value that may be
used. -/
theorem paramBind {β : Type} {name : String} {k : Handle → HostM β} {R : β → Host → Prop}
    (held : G.course.holds s) (next : ∀ v, G.uses s v → G.course.Leads (k v) s R) :
    G.course.Leads (param name >>= k) s R := by
  have found : G.course.Leads (param name) s fun v t => t = s ∧ G.uses s v :=
    Leads.hostOf held fun v run => ⟨rfl, law.found held run⟩
  refine found.bind ?_
  rintro v _ _ _ ⟨rfl, used⟩
  exact next v used

/-- A name is resolved without any change. What it stands for is called, not used. -/
theorem leads_resolve {name : String} {arity : Nat} (held : G.course.holds s) :
    G.course.Leads (resolve name arity) s fun _ _ => True := by
  refine Leads.hostLookBind (Leads.hostOfBind held fun v run => ?_)
  exact law.heapPlain Heap.sound_callable held (by simp)

/-- A handler is given the report, or nothing at all. -/
theorem leads_handlerArgs {report handler : Handle} (held : G.course.holds s)
    (used : G.uses s report) :
    G.course.Leads (handlerArgs report handler) s fun args t => ∀ v ∈ args, G.uses t v := by
  refine (law.heapLook held).bind fun d t held gone _ => .pure held ?_
  have used := law.lasts used gone
  split
  · simpa using used
  · simp

/-! ## Calls -/

section Calls

variable {run : Runner} (bodies : G.Runs run)

include bodies

/-- A body one call deeper: the call in progress is counted off again, however the body ends. -/
theorem leads_counted {b : Body} (held : G.course.holds s) :
    G.course.Leads (HostM.counted (run.body b)) s fun v t => G.uses t v := by
  obtain ⟨entered, leave⟩ := law.counted held
  have whole : HostM.counted (run.body b) s = always (run.body b) Host.left s.entered := rfl
  exact Leads.always whole (bodies b s.entered entered) fun u held gone => leave held gone

/-- **A call** binds its parameters, runs the body one call deeper, and drops the frames that are
left on top. -/
theorem leads_execute {c : Callable} {args : List Handle} (held : G.course.holds s)
    (used : ∀ v ∈ args, G.uses s v) :
    G.course.Leads (execute run c args) s fun v t => G.uses t v := by
  unfold execute
  refine Leads.hostLookBind ?_
  split
  · exact Leads.fail held
  -- the frames are dropped to the depth before the call, so the two steps are taken together
  have entering := law.enter (c := c) held used
  cases ends : bindParams c args s with
  | ok vs t =>
    obtain ⟨heldThen, gone, _⟩ := entering.ok ends
    have rest := law.leads_counted bodies (b := c.body) heldThen
    refine Leads.always ?_ rest fun u held' further =>
      law.unwind held held' (G.course.trans gone further)
    simp only [Bind.bind, EStateM.bind, HostM.look, ends]
  | error e t =>
    obtain ⟨held, gone⟩ := entering.error ends
    refine Leads.of_error (e := e) (t := t) ?_ held gone
    simp only [Bind.bind, EStateM.bind, HostM.look, ends]

/-- Calls by name are calls of what the name stands for. -/
theorem leads_call {name : String} {args : List Handle} (held : G.course.holds s)
    (used : ∀ v ∈ args, G.uses s v) : G.course.Leads (call run name args) s fun v t => G.uses t v :=
  (law.leads_resolve held).bind fun _ _ held gone _ =>
    law.leads_execute bodies held fun v mem => law.lasts (used v mem) gone

/-- Calls by value may be of any value: what is no function is refused. -/
theorem leads_callValue {callee : Handle} {args : List Handle} (held : G.course.holds s)
    (used : ∀ v ∈ args, G.uses s v) :
    G.course.Leads (callValue run callee args) s fun v t => G.uses t v :=
  (law.heapPlain Heap.sound_callable held (by simp)).bind fun _ _ held gone _ =>
    law.leads_execute bodies held fun v mem => law.lasts (used v mem) gone

/-! ## Handlers -/

/-- Handlers are called one after the other, up to the first that refuses. -/
theorem leads_offer {report : Handle} {handlers : List Handle} (held : G.course.holds s)
    (used : G.uses s report) : G.course.Leads (offer run report handlers) s fun _ _ => True := by
  induction handlers generalizing s with
  | nil => exact .pure held trivial
  | cons handler rest ih =>
    refine (law.leads_handlerArgs held used).bind fun args t held first given => ?_
    refine (law.leads_callValue bodies held given).bind fun answer u held second _ => ?_
    refine (law.heapAsk held).bind fun accepted w held third _ => ?_
    split
    · exact ih held (law.lasts used (G.course.trans first (G.course.trans second third)))
    · exact .pure held trivial

/-- Handlers are offered a report of the fault, made for them. -/
theorem leads_invokeHandlers (kind : FaultKind) (location message : String)
    (held : G.course.holds s) :
    G.course.Leads (invokeHandlers run kind location message) s fun _ _ => True := by
  refine Leads.hostLookBind ?_
  split
  · exact .pure held trivial
  · exact (law.heapValue Heap.sound_errorReport held (by simp)).bind fun _ _ held _ used =>
      law.leads_offer bodies held used

/-! ## Guards and outcomes -/

/-- **A guard** drops the frames of the statement that failed, and then offers the fault to the
handlers. -/
theorem leads_guard {location : String} {statement : HostM Handle} (held : G.course.holds s)
    (step : G.course.Leads statement s fun v t => G.uses t v) :
    G.course.Leads (HostM.guard run location statement) s fun v t => G.uses t v := by
  -- the frames that a failed statement leaves are dropped before anything else is done
  have back : ∀ {f : Fault} {t : Host}, statement s = .error (.fault f) t →
      G.course.holds (t.unwind s.env.stack.depth) ∧
      G.course.goes s (t.unwind s.env.stack.depth) := by
    intro f t ends
    obtain ⟨heldThen, gone⟩ := step.error ends
    obtain ⟨held, gone, _⟩ := law.unwind held heldThen gone
    exact ⟨held, gone⟩
  obtain ⟨r, whole⟩ : ∃ r, HostM.guard run location statement s = r := ⟨_, rfl⟩
  cases guardEnds whole with
  | yields ends =>
    obtain ⟨held, gone, used⟩ := step.ok ends
    exact .of_ok whole held gone used
  | exhausted ends =>
    obtain ⟨held, gone⟩ := step.error ends
    exact .of_error whole held gone
  | passes ends _ =>
    obtain ⟨held, gone⟩ := back ends
    exact .of_error whole held gone
  | accepted ends _ answer =>
    obtain ⟨held, gone⟩ := back ends
    obtain ⟨held, further, _⟩ := (law.leads_invokeHandlers bodies _ location _ held).ok answer
    exact (law.heapNull held).continued whole (G.course.trans gone further)
  | declined ends _ answer =>
    obtain ⟨held, gone⟩ := back ends
    obtain ⟨held, further, _⟩ := (law.leads_invokeHandlers bodies _ location _ held).ok answer
    exact .of_error whole held (G.course.trans gone further)
  | fails ends _ answer =>
    obtain ⟨held, gone⟩ := back ends
    obtain ⟨held, further⟩ := (law.leads_invokeHandlers bodies _ location _ held).error answer
    exact .of_error whole held (G.course.trans gone further)

end Calls

/-- What a body comes to is told, not used, and its frames are dropped. -/
theorem leads_outcome {body : HostM Handle} (held : G.course.holds s)
    (step : G.course.Leads body s fun v t => G.uses t v) :
    G.course.Leads (outcome body) s fun _ _ => True := by
  obtain ⟨r, whole⟩ : ∃ r, outcome body s = r := ⟨_, rfl⟩
  cases runEnds whole with
  | completed ends =>
    obtain ⟨heldThen, gone, _⟩ := step.ok ends
    obtain ⟨held, gone, _⟩ := law.unwind held heldThen gone
    exact .of_ok whole held gone trivial
  | exhausted ends =>
    obtain ⟨held, gone⟩ := step.error ends
    exact .of_error whole held gone
  | terminated ends _ | aborted ends _ =>
    obtain ⟨heldThen, gone⟩ := step.error ends
    obtain ⟨held, gone, _⟩ := law.unwind held heldThen gone
    exact .of_ok whole held gone trivial

end Regime.Lawful

end ScriptHost
