import ScriptHost.Proofs.Host.Approximation
import ScriptHost.Proofs.Host.Ground
import ScriptHost.Proofs.Host.Run

/-!
# Calls leave the frames of their caller

After a call the host has the stack that it had before, frame by frame, and its base table has at
most got more bindings, however the call ends: `Host.call_restores`. That holds as long as the
bodies that are run keep their hands off what lies below the call; a `Fence` says which acts they
have to refrain from, and stops an evaluation before the first of them. The number of calls in
progress is restored whatever the bodies do.
-/

set_option autoImplicit false

namespace ScriptHost

open HostM Course

/-! ## Fences -/

/-- What is not to be touched during a call. -/
structure Fence where
  /-- The number of frames below the call. -/
  floor : Nat
  /-- Whether names may not be bound in these frames. -/
  frames : Bool
  /-- Whether the base table may not be emptied through another environment. -/
  base : Bool

namespace Fence

/-- Whether an act would touch what lies below a call: dropping a frame of the caller, or making a
new environment for the host, or emptying the one it has; and if the fence says so, binding a bare
name in a frame of the caller, or emptying an environment that shares the base table. -/
def stops (f : Fence) (s : Host) : Act → Bool
  | .command (.newEnv env _) | .command (.cloneEnv _ env _) => env == .host
  | .command (.popFrame env) => env == .host && 0 < s.env.stack.depth && s.env.stack.depth ≤ f.floor
  | .command (.clearEnv .host) => true
  | .command (.clearEnv (.named n)) =>
    f.base && (Named.find n s.environments).any (·.sharesBase s.env)
  | .bind (.symbol env key) | .bind (.plainSymbol env key) =>
    f.frames && env == .host && !(unmark key).1 && 0 <
      s.env.stack.depth && s.env.stack.depth ≤ f.floor
  | _ => false

/-- Gives up before an act that the fence stops. -/
def watch (f : Fence) (act : Act) : HostM Unit :=
  fun s => if f.stops s act then .error .exhausted s else .ok () s

variable {f : Fence} {g : Ground} {s : Host}

/-- A fence stops some acts and changes nothing. -/
theorem approx_watch (act : Act) : Approx (f.watch act) (return ()) := by
  intro s
  by_cases stopped : f.stops s act
  · exact .inl ⟨s, by simp only [watch, stopped, if_true]⟩
  · exact .inr (by simp only [watch, stopped]; rfl)

/-- A fence around the frames, or around the bindings, of a ground. -/
structure Encloses (f : Fence) (g : Ground) : Prop where
  frames : g.frames = [] ∨ f.frames = true ∧ g.frames.length = f.floor
  room : g.room = 0
  bindings : g.bindings = [] ∨ f.base = true

/-- An act that a fence lets pass spares the ground it encloses. -/
theorem Encloses.spared {act : Act} (encloses : f.Encloses g) (under : g.Under s)
    (passes : f.stops s act = false) : g.Spared s act := by
  have shallow : s.env.stack.depth = 0 → g.frames = [] := fun empty =>
    List.suffix_nil.mp (List.length_eq_zero_iff.mp empty ▸ under.frames)
  cases act with
  | command c =>
    cases c with
    | newEnv env limit => simpa [stops, Ground.Spared] using passes
    | cloneEnv source env kind => simpa [stops, Ground.Spared] using passes
    | popFrame env =>
      rintro rfl
      have room := encloses.room
      obtain none | ⟨_, floor⟩ := encloses.frames
      · exact .inl ⟨none, room⟩
      · by_cases empty : s.env.stack.depth = 0
        · exact .inl ⟨shallow empty, room⟩
        · have deep : f.floor < s.env.stack.depth := by
            simpa [stops, Nat.pos_of_ne_zero empty] using passes
          exact .inr (by omega)
    | clearEnv env =>
      cases env with
      | host => simp [stops] at passes
      | named n =>
        refine encloses.bindings.imp_right fun guarded e found => ?_
        simpa [stops, guarded, found, Environment.sharesBase, under.base] using passes
    | _ => trivial
  | operate _ _ _ | setElements _ _ => trivial
  | bind place =>
    have bare : ∀ key,
        (f.frames && true && !(unmark key).1 && 0 < s.env.stack.depth &&
          s.env.stack.depth ≤ f.floor) = false →
        s.scope.Spares g.frames key := by
      intro key passes
      obtain none | ⟨guarded, floor⟩ := encloses.frames
      · exact .inl none
      · by_cases empty : s.env.stack.depth = 0
        · exact .inl (shallow empty)
        · by_cases marked : (unmark key).1 = true
          · exact .inr (.inl marked)
          · have deep : f.floor < s.env.stack.depth := by
              simpa [guarded, marked, Nat.pos_of_ne_zero empty] using passes
            exact .inr (.inr (floor ▸ deep))
    cases place with
    | symbol env key =>
      rintro rfl
      exact bare key passes
    | plainSymbol env key =>
      rintro rfl
      exact bare key passes
    | _ => trivial

/-- A fence that encloses a ground stops every act that would not spare it. -/
theorem Encloses.guards (encloses : f.Encloses g) : Host.Guards f.watch (some g) := by
  intro act s
  by_cases stopped : f.stops s act
  · exact .inr ⟨.exhausted, by simp only [watch, stopped, if_true]⟩
  · refine .inl ⟨by simp only [watch, stopped]; rfl, ?_⟩
    rintro _ ⟨⟩ under
    exact encloses.spared under (by simpa using stopped)

end Fence

/-! ## Calls -/

/-- What is called: the overload of a name, or a value. -/
inductive Callee where
  | name (n : String)
  | value (v : Handle)

/-- Calls it. -/
def Callee.call (run : Runner) (args : List Handle) : Callee → HostM Handle
  | .name n => HostM.call run n args
  | .value v => HostM.callValue run v args

/-- The host after a call, whether it fails or not. -/
def Callee.after (callee : Callee) (levels : Nat) (args : List Handle) (s : Host) : Host :=
  endState (callee.call (.free levels) args) s

/-- A call that reaches no act that the fence stops, and is not nested deeper than there are
levels. -/
def Fence.Contains (f : Fence) (levels : Nat) (callee : Callee) (args : List Handle) (s : Host) :
    Prop :=
  ¬ GaveUp (callee.call (.watched f.watch levels) args s)

instance {f : Fence} {levels : Nat} {callee : Callee} {args : List Handle} {s : Host} :
    Decidable (f.Contains levels callee args s) :=
  inferInstanceAs (Decidable (¬ _))

/-- Calls by name and by value are approximated if their bodies are. -/
theorem Callee.approx_call {run run' : Runner} (bodies : ∀ b, Approx (run'.body b) (run.body b))
    (callee : Callee) (args : List Handle) :
    Approx (callee.call run' args) (callee.call run args) := by
  cases callee with
  | name n => exact ScriptHost.approx_call bodies n args
  | value v => exact approx_callValue bodies v args

/-- Inside of a fence, the watch makes no difference. -/
theorem Fence.Contains.run_eq {f : Fence} {levels : Nat} {callee : Callee} {args : List Handle}
    {s : Host} (contained : f.Contains levels callee args s) :
    callee.call (.watched f.watch levels) args s = callee.call (.free levels) args s :=
  (callee.approx_call (approx_runBody Fence.approx_watch levels) args s).resolve_left contained

namespace Host

variable {s : Host}

/-- **A call leaves the ground in place**, if acts that would not are stopped. -/
theorem standing_call {ground : Option Ground} {watch : Act → HostM Unit}
    (guards : Guards watch ground) (levels : Nat) (callee : Callee) (args : List Handle)
    (held : (standing ground).course.holds s) :
    (standing ground).course.Leads (callee.call (.watched watch levels) args) s
      fun _ _ => True := by
  have law := standing_lawful guards
  cases callee with
  | name n => exact law.leads_call (law.leads_body levels) held fun _ _ => trivial
  | value v => exact law.leads_callValue (law.leads_body levels) held fun _ _ => trivial

/-! ## The depth after a call -/

/-- Hosts whose stack gets no deeper. -/
def shrinking : Course Host where
  holds _ := True
  goes s t := t.env.stack.depth ≤ s.env.stack.depth
  refl _ := le_rfl
  trans first second := second.trans first

theorem shrinking_onHeap {α : Type} (m : HeapM α) : shrinking.Leads (onHeap m) s fun _ _ => True :=
  Leads.onAnyHeap m fun _ => ⟨trivial, le_rfl⟩

/-- A step whose failure leaves no deeper stack. -/
def Clean {α : Type} (m : HostM α) (s : Host) : Prop := ∀ e t, m s = .error e t → shrinking.goes s t

/-- The first step must not leave a deeper stack at all, the next one not when it fails. -/
theorem Clean.bind {α β : Type} {m : HostM α} {f : α → HostM β}
    (first : shrinking.Leads m s fun _ _ => True) (next : ∀ a t, Clean (f a) t) :
    Clean (m >>= f) s := by
  intro e u ends
  cases run : m s with
  | ok a t =>
    have rest : f a t = .error e u := by simpa only [Bind.bind, EStateM.bind, run] using ends
    exact shrinking.trans (first.ok run).2.1 (next a t e u rest)
  | error e' t =>
    simp only [Bind.bind, EStateM.bind, run] at ends
    cases ends
    exact (first.error run).2

/-- A frame that is refused is not pushed. -/
theorem clean_push {α : Type} {frame : SymbolTable} {a : α} :
    Clean (do onScope .host (Scope.push frame); return a) s := by
  intro e t ends
  by_cases full : s.env.stack.isFull
  · have refused := Stack.push_of_isFull full frame
    simp only [onScope, environment, look, Bind.bind, EStateM.bind, Scope.push, Scope.onStack,
      scopeOf, refused, fail] at ends
    cases ends
    exact le_rfl
  · simp only [onScope, environment, look, Bind.bind, EStateM.bind, Scope.push, Scope.onStack,
      scopeOf, Stack.push, full, Bool.false_eq_true, if_false] at ends
    cases ends

/-- Parameters that cannot be bound leave no frame behind. -/
theorem clean_bindParams {c : Callable} {args : List Handle} : Clean (bindParams c args) s := by
  have bindings : shrinking.Leads (HostM.bindings c.params args) s fun _ _ => True :=
    Course.leads_bindings (fun m _ _ => shrinking_onHeap m) trivial
  have frame : ∀ bs t, shrinking.Leads (HostM.frame bs) t fun _ _ => True :=
    fun _ _ => (Course.leads_frame trivial).weaken fun _ _ _ _ _ => trivial
  exact .bind bindings fun bs t => .bind (frame bs t) fun _ _ => clean_push

/-- Cutting a stack back to a depth leaves it no deeper. -/
theorem shrinking_unwind (t : Host) : shrinking.goes s (t.unwind s.env.stack.depth) := by
  change (t.env.stack.unwind s.env.stack.depth).depth ≤ s.env.stack.depth
  rw [Stack.depth_unwind]
  exact min_le_right _ _

theorem shrinking_execute {run : Runner} {c : Callable} {args : List Handle} :
    shrinking.Leads (execute run c args) s fun _ _ => True := by
  unfold execute
  refine Leads.hostLookBind ?_
  split
  · exact Leads.fail trivial
  refine Leads.hostLookBind ?_
  cases bound : bindParams c args s with
  | error e t =>
    refine Leads.of_error (e := e) (t := t) ?_ trivial (clean_bindParams e t bound)
    simp only [Bind.bind, EStateM.bind, bound]
  | ok vs t =>
    have whole : (bindParams c args >>=
        fun _ => always (counted (run.body c.body)) (·.unwind s.env.stack.depth)) s =
        always (counted (run.body c.body)) (·.unwind s.env.stack.depth) t := by
      simp only [Bind.bind, EStateM.bind, bound]
    cases ends : counted (run.body c.body) t with
    | ok v u =>
      exact .of_ok (a := v) (whole.trans (by simp only [always, ends])) trivial
        (shrinking_unwind u) trivial
    | error e u =>
      exact .of_error (e := e) (whole.trans (by simp only [always, ends])) trivial
        (shrinking_unwind u)

/-- **No call leaves a deeper stack** than it found, whatever the bodies do. -/
theorem shrinking_call (run : Runner) (callee : Callee) (args : List Handle) :
    shrinking.Leads (callee.call run args) s fun _ _ => True := by
  cases callee with
  | name n =>
    have resolved : shrinking.Leads (resolve n args.length) s fun _ _ => True :=
      Leads.hostLookBind (Leads.hostOfBind trivial fun _ _ => shrinking_onHeap _)
    exact resolved.bind fun _ _ _ _ _ => shrinking_execute
  | value v => exact (shrinking_onHeap _).bind fun _ _ _ _ _ => shrinking_execute

/-! ## What a call leaves -/

/-- The fence around the frames of a host. -/
def aroundFrames (s : Host) : Fence := ⟨s.env.stack.depth, true, false⟩

/-- The fence around the base table of a host. -/
def aroundBase (s : Host) : Fence := ⟨s.env.stack.depth, false, true⟩

variable {callee : Callee} {args : List Handle} {levels : Nat}

/-- What a call inside of a fence leaves, it leaves of a ground that the fence encloses. -/
theorem under_call {f : Fence} {g : Ground} (contained : f.Contains levels callee args s)
    (encloses : f.Encloses g) (under : g.Under s) : g.Under (callee.after levels args s) := by
  have held : (standing (some g)).course.holds s := by
    rintro _ ⟨⟩
    exact under
  have leads := standing_call encloses.guards levels callee args held
  have same : callee.after levels args s =
      endState (callee.call (.watched f.watch levels) args) s := by
    simp only [Callee.after, endState, contained.run_eq]
  rw [same]
  exact leads.atEnd.1 g rfl

/-- A contained call leaves the frames as they were, no fewer and no more. -/
theorem frames_call (contained : s.aroundFrames.Contains levels callee args s) :
    let t := callee.after levels args s
    t.env.stack.frames = s.env.stack.frames ∧ t.env.stack.limit = s.env.stack.limit ∧
      t.env.base = s.env.base := by
  intro t
  have under : Ground.Under ⟨s.env.stack.frames, 0, s.env.stack.limit, s.env.base, []⟩ t :=
    under_call contained ⟨.inr ⟨rfl, rfl⟩, rfl, .inl rfl⟩ ⟨List.suffix_rfl, le_rfl, rfl, rfl,
      List.nil_suffix⟩
  have shallow : t.env.stack.depth ≤ s.env.stack.depth := (shrinking_call _ callee args).atEnd.2
  exact ⟨(under.frames.eq_of_length_le shallow).symm, under.limit, under.base⟩

/-- A contained call takes no binding out of the base table. -/
theorem bindings_call (contained : s.aroundBase.Contains levels callee args s) :
    let t := callee.after levels args s
    t.env.base = s.env.base ∧ (s.base s.env.base).bindings <:+ (t.base s.env.base).bindings := by
  intro t
  have under : Ground.Under ⟨[], 0, s.env.stack.limit, s.env.base,
      (s.base s.env.base).bindings⟩ t :=
    under_call contained ⟨.inl rfl, rfl, .inr rfl⟩ ⟨List.nil_suffix, Nat.zero_le _, rfl, rfl,
      List.suffix_rfl⟩
  exact ⟨under.base, under.bindings⟩

/-- Without a ground there is nothing to guard. -/
theorem guards_none : Guards (fun _ => return ()) none := fun _ _ => .inl ⟨rfl, by simp⟩

/-- **Calls restore what they find.** Inside of the fence around the frames, a call leaves the very
frames of its caller, in an environment with the same limit and the same base table; inside of the
fence around the base table, it leaves all bindings of that table in place. Whatever the bodies do,
there are as many calls in progress after a call as before, and as many after a body as when it was
entered, so that one can be counted out. -/
theorem call_restores (s : Host) (callee : Callee) (args : List Handle) (levels : Nat) :
    let t := callee.after levels args s
    (s.aroundFrames.Contains levels callee args s → t.env.stack.frames = s.env.stack.frames ∧
      t.env.stack.limit = s.env.stack.limit ∧ t.env.base = s.env.base) ∧
    (s.aroundBase.Contains levels callee args s → t.env.base = s.env.base ∧
      (s.base s.env.base).bindings <:+ (t.base s.env.base).bindings) ∧
    t.callDepth = s.callDepth ∧
    ∀ (b : Body) (u : Host),
      (endState ((Runner.free levels).body b) u.entered).callDepth = u.callDepth + 1 := by
  intro t
  refine ⟨frames_call, bindings_call, ?_, fun b u => ?_⟩
  · exact (standing_call guards_none levels callee args (by simp [standing])).atEnd.2
  · have leads := (standing_lawful guards_none).leads_body levels b u.entered (by simp [standing])
    exact leads.atEnd.2

/-- A body that leaves a frame behind with a binding of its own, adds to the base table and
fails. -/
theorem call_restores_abandoned :
    let body := [Expr.command (.pushFrame .host), .bind (.symbol .host "x") (.literal (.integer 1)),
      .bind (.symbol .host (marked "y")) (.literal (.integer 2)), .raise .terminated]
    let s := Session.after (.bare .default)
      [.bind (.symbol .host "f") (.function "f" [] body), .command (.pushFrame .host),
        .bind (.symbol .host "x") (.literal (.integer 3))]
    (s.env.stack.depth = 1 ∧
      ((Callee.name "f").after 9 [] s).env.stack.frames = s.env.stack.frames) ∧
      (s.base s.env.base).bindings <:+ (((Callee.name "f").after 9 [] s).base s.env.base).bindings ∧
      (((Callee.name "f").after 9 [] s).base s.env.base).length = 2 ∧
      ((Callee.name "f").after 9 [] s).callDepth = s.callDepth := by
  intro body s
  have frames : s.aroundFrames.Contains 9 (.name "f") [] s := by decide +kernel
  have base : s.aroundBase.Contains 9 (.name "f") [] s := by decide +kernel
  have restores := call_restores s (.name "f") [] 9
  exact ⟨⟨by decide +kernel, (restores.1 frames).1⟩, (restores.2.1 base).2, by decide +kernel,
    restores.2.2.1⟩

/-- **What lies below a call can be touched from inside**, with no frame of the caller dropped and
the environment of the host neither emptied nor replaced: the base table can be emptied through a
clone that shares it, and a body that drops the frame of its own call binds names in the frame of
the caller. -/
theorem call_disturbs :
    let clears :=
      [Expr.command (.cloneEnv .host (.named "E") .minimal), .command (.clearEnv (.named "E"))]
    let binds := [Expr.command (.popFrame .host), .bind (.symbol .host "x") (.literal (.integer 1))]
    let s := Session.after (.bare .default) [.bind (.symbol .host "f") (.function "f" [] clears)]
    let u := Session.after (.bare .default)
      [.bind (.symbol .host "f") (.function "f" [] binds), .command (.pushFrame .host)]
    (Fence.Contains ⟨s.env.stack.depth, false, false⟩ 9 (.name "f") [] s ∧
      ¬ (s.base 0).bindings <:+ (((Callee.name "f").after 9 [] s).base 0).bindings) ∧
    Fence.Contains ⟨u.env.stack.depth, false, false⟩ 9 (.name "f") [] u ∧
      ((Callee.name "f").after 9 [] u).env.stack.frames ≠ u.env.stack.frames := by
  intro clears binds s u
  refine ⟨⟨by decide +kernel, by decide +kernel⟩, by decide +kernel, fun same => ?_⟩
  have lengths := congrArg (List.map SymbolTable.length) same
  revert lengths
  decide +kernel

end Host

end ScriptHost
