import ScriptHost.Proofs.Host.Behaviour
import ScriptHost.Proofs.Host.Run
import ScriptHost.Proofs.Atomicity
import ScriptHost.Proofs.Overloads
import ScriptHost.Proofs.StackLimit

/-!
# Programs that end

A program can call functions that call one another without end, by name, as handlers, or as the
predicates that arrays are sorted and searched by. Every call leaves a frame on the stack of the
host while it is in progress, and the stack has a limit. So as long as no command drops frames of
the host or puts another environment in its place, as many calls are nested as the limit has frames,
and no more: an evaluation ends with a result or with a fault, whatever the program
(`bounded_programs_end`).

Levels are how the evaluator counts nested calls. What has to be shown is that it never runs out of
them, and that is by induction on the levels: with `k` calls in progress, `m - k` levels are enough
under a limit of `m` frames, because there are at least `k` frames. The invariant is the conduct
`poised`, one for each number of calls in progress.

That it holds at every moment is said by an evaluation that is inspected: it looks at the host
before each act, and before and after each body, and gives up unless some condition holds. If poised
hosts meet the condition, it never does.
-/

set_option autoImplicit false

namespace ScriptHost

open HostM Course

/-! ## Inspection -/

/-- Runs a step, and gives up unless a condition holds before it and after it. -/
def HostM.inspected {α : Type} (check : Host → Prop) [DecidablePred check] (step : HostM α) :
    HostM α := fun s =>
  if check s then
    match step s with
    | .ok a t => if check t then .ok a t else .error .exhausted t
    | .error e t => if check t then .error e t else .error .exhausted t
  else .error .exhausted s

section Inspection

variable (check : Host → Prop) [DecidablePred check] {α : Type}

/-- Runs a body with so many levels under inspection. -/
def inspectBody : Nat → Body → HostM Handle
  | 0, _ => throw .exhausted
  | n + 1, .routine r =>
    inspected check (r.perform ⟨inspectBody n, fun _ => inspected check (return ())⟩)
  | n + 1, .script code =>
    inspected check (Expr.evalBody ⟨inspectBody n, fun _ => inspected check (return ())⟩ code)

/-- Runs bodies with so many levels, and inspects the host before each act and around each body. -/
def Runner.inspecting (levels : Nat) : Runner :=
  ⟨inspectBody check levels, fun _ => inspected check (return ())⟩

variable {check}

theorem inspected_of_ok {step : HostM α} {s t : Host} {a : α} (before : check s)
    (run : step s = .ok a t) (after : check t) : inspected check step s = .ok a t := by
  simp only [inspected, before, run, after, if_true]

theorem inspected_of_error {step : HostM α} {s t : Host} {e : Halt} (before : check s)
    (run : step s = .error e t) (after : check t) : inspected check step s = .error e t := by
  simp only [inspected, before, run, after, if_true]

/-- An inspection changes nothing, but that it may give up. -/
theorem approx_inspected {m' m : HostM α} (approx : Approx m' m) :
    Approx (inspected check m') m := by
  intro s
  by_cases before : check s
  · cases run : m' s with
    | ok a t =>
      by_cases after : check t
      · rw [inspected_of_ok before run after, ← run]
        exact approx s
      · exact .inl ⟨t, by simp only [inspected, before, run, after, if_true, if_false]⟩
    | error e t =>
      by_cases after : check t
      · rw [inspected_of_error before run after, ← run]
        exact approx s
      · exact .inl ⟨t, by simp only [inspected, before, run, after, if_true, if_false]⟩
  · exact .inl ⟨s, by simp only [inspected, before, if_false]⟩

theorem approx_inspectBody (levels : Nat) (b : Body) :
    Approx (inspectBody check levels b) (runBody (fun _ => return ()) levels b) := by
  induction levels generalizing b with
  | zero => exact fun s => .inl ⟨s, rfl⟩
  | succ n ih =>
    have watches : ∀ act : Act, Approx (inspected check (return ())) (return ()) :=
      fun _ => approx_inspected fun _ => .inr rfl
    cases b with
    | routine r => exact approx_inspected (approx_perform ih watches r)
    | script code => exact approx_inspected (approx_evalBody ih watches code)

/-- What keeps to a conduct under which the condition holds passes the inspection. -/
theorem Conduct.Abides.inspected {K : Conduct} {step : HostM α} (abides : K.Abides step)
    (checks : ∀ s, K.course.holds s → check s) : K.Abides (inspected check step) := by
  refine ⟨fun s held => ?_⟩
  have follows := abides.follows s held
  cases run : step s with
  | ok a t =>
    obtain ⟨heldThen, gone, -⟩ := follows.1.ok run
    exact .of_ok (inspected_of_ok (checks s held) run (checks t heldThen)) heldThen gone trivial
  | error e t =>
    obtain ⟨heldThen, gone, ends⟩ := follows.error run
    exact .of_error (inspected_of_error (checks s held) run (checks t heldThen)) heldThen gone ends

end Inspection

/-! ## Levels -/

/-- More levels change nothing as long as those there are have been enough. -/
theorem eval_of_more_levels {e : Expr} {s : Host} {n m : Nat} (ends : ¬ GaveUp (e.eval (.free n) s))
    (more : n ≤ m) : e.eval (.free m) s = e.eval (.free n) s := by
  obtain ⟨j, rfl⟩ := Nat.exists_eq_add_of_le more
  have approx : Approx (e.eval (.free n)) (e.eval (.free (n + j))) := by
    apply approx_eval
    · exact approx_levels (fun _ _ => .inr rfl) n j
    · exact fun _ _ => .inr rfl
  exact ((approx s).resolve_left ends).symm

/-! ## Calls at the limit -/

/-- The depth and the limit of the stack overflow that a run ended in. -/
def HostM.overflow? {α : Type} : EStateM.Result Halt Host α → Option (Nat × Nat)
  | .error (.fault (.stackOverflow depth limit)) _ => some (depth, limit)
  | _ => none

/-- What has arities is an executable, and they are its own. -/
theorem Data.exists_of_arities {ρ : Type} {d : Data ρ} {arity : Nat} (takes : arity ∈ d.arities) :
    ∃ e, d = .leaf (.executable e) ∧ arity ∈ e.arities := by
  have kind : d.kind = .executable := by
    by_contra other
    have none := (asExecutable?_eq_none_iff d).mpr other
    simp [arities, none] at takes
  obtain ⟨e, rfl⟩ := exists_of_kind kind
  exact ⟨e, rfl, takes⟩

namespace Callable

theorem nodup_of_repeated? {seen names : List String} (none : repeated? seen names = .none) :
    names.Nodup ∧ ∀ n ∈ names, n ∉ seen := by
  induction names generalizing seen with
  | nil => exact ⟨List.nodup_nil, by simp⟩
  | cons n names ih =>
    rw [repeated?] at none
    split at none
    next => cases none
    next new =>
      obtain ⟨distinct, unseen⟩ := ih none
      have first : n ∉ names := fun mem => unseen n mem (List.mem_cons_self ..)
      refine ⟨List.nodup_cons.mpr ⟨first, distinct⟩, ?_⟩
      intro k mem
      rcases List.mem_cons.mp mem with rfl | later
      · simpa using new
      · exact fun old => unseen k later (List.mem_cons_of_mem _ old)

theorem nodup_of_checkParams {params : List Param} (checked : checkParams params = .ok ()) :
    (params.map fun p => Symbol.plain p.name).Nodup := by
  rw [checkParams] at checked
  split at checked
  next => cases checked
  next none =>
    have distinct :=
      (nodup_of_repeated? none).1.map (f := Symbol.plain) fun _ _ same => Symbol.plain.inj same
    rwa [List.map_map] at distinct

end Callable

namespace Host

variable {s : Host}

/-- An argument is taken as it is, or copied. -/
theorem exists_bound (mode : BindingMode) (arg : Handle) (s : Host) :
    ∃ v h, bound mode arg s = .ok v { s with heap := h } := by
  cases mode with
  | reference => exact ⟨arg, s.heap, rfl⟩
  | value =>
    obtain ⟨v, h, run, -⟩ := Heap.extends_copyTo false s.heap.levels arg s.heap
    have copied : HeapM.copy arg s.heap = .ok v h := run
    exact ⟨v, h, by simp only [bound, onHeap, copied]⟩

theorem bindings_cons (p : Param) (params : List Param) (a : Handle) (args : List Handle) :
    bindings (p :: params) (a :: args) = do
      let v ← bound p.mode a
      let bs ← bindings params args
      return (.plain p.name, v) :: bs := by
  simp only [bindings, List.zip_cons_cons, List.mapM_cons, bind_assoc, pure_bind]

theorem exists_bindings (params : List Param) (args : List Handle) (s : Host) :
    ∃ bs h, bindings params args s = .ok bs { s with heap := h } ∧
      (bs.map (·.1)).Sublist (params.map fun p => Symbol.plain p.name) := by
  induction params generalizing args s with
  | nil => exact ⟨[], s.heap, rfl, .slnil⟩
  | cons p params ih =>
    cases args with
    | nil => exact ⟨[], s.heap, rfl, List.nil_sublist _⟩
    | cons a args =>
      obtain ⟨v, h, first⟩ := exists_bound p.mode a s
      obtain ⟨bs, k, rest, names⟩ := ih args { s with heap := h }
      refine ⟨(.plain p.name, v) :: bs, k, ?_, names.cons_cons _⟩
      simp only [bindings_cons, Bind.bind, EStateM.bind, first, rest]
      rfl

/-- **A call at the limit** is refused, whatever would run its body. -/
theorem execute_of_full (full : s.env.stack.Full) (going : s.interrupted = false) {c : Callable}
    (checked : Callable.checkParams c.params = .ok ()) (run : Runner) (args : List Handle) :
    ∃ t, execute run c args s =
      .error (.fault (.stackOverflow (s.env.stack.depth + 1) s.env.stack.limit)) t := by
  obtain ⟨bs, h, bound, names⟩ := exists_bindings c.params args s
  have distinct : (bs.map (·.1) ++ SymbolTable.empty.symbols).Nodup := by
    have none : SymbolTable.empty.symbols = [] := rfl
    rw [none, List.append_nil]
    exact names.nodup (Callable.nodup_of_checkParams checked)
  have here : { s with heap := h }.environment? .host = some s.env := rfl
  have refused : bindParams c args s =
      .error (.fault (.stackOverflow (s.env.stack.depth + 1) s.env.stack.limit))
        { s with heap := h } := by
    have framed : frame bs = return ⟨bs.reverse ++ SymbolTable.empty.bindings⟩ := by
      simp only [frame, SymbolTable.run_load distinct]
    have pushed := run_push_of_full here full ⟨bs.reverse ++ SymbolTable.empty.bindings⟩
    simp only [bindParams, framed, Bind.bind, EStateM.bind, bound]
    simp only [Pure.pure, EStateM.pure, pushed]
  refine ⟨{ s with heap := h }, ?_⟩
  simp only [execute, Bind.bind, EStateM.bind, look, going, Bool.false_eq_true, if_false, refused]

end Host

/-! ## Poised hosts -/

/-- A command that leaves the frames and the environment of the host in place. -/
def Command.KeepsFrames (c : Command) : Prop := ¬ c.Resets (· = .host)

/-- A callable that can be called and leaves the frames of the host in place. -/
def Callable.KeepsFrames (c : Callable) : Prop :=
  c.body.Only Command.KeepsFrames ∧ checkParams c.params = .ok ()

namespace Host

/-- There are no more calls in progress than frames, and no more frames than the limit. -/
def Nested (m : Nat) (s : Host) : Prop := s.callDepth ≤ s.env.stack.depth ∧ s.env.stack.depth ≤ m

instance decidableNested (m : Nat) : DecidablePred (Nested m) :=
  fun _ => inferInstanceAs (Decidable (_ ∧ _))

/-- A host under a limit of `m` frames, all of whose functions keep the frames of the host. -/
structure Poised (m : Nat) (s : Host) : Prop where
  callables : s.heap.All (Data.Runs Callable.KeepsFrames)
  nested : s.Nested m
  attained : s.env.stack.attained ≤ m
  limit : s.env.stack.limit = m
  settings : s.settings.stackLimit = m

theorem Moved.env {s t : Host} (moved : s.Moved (· = .host) t) : s.env.stack.Rises t.env.stack := by
  have here : s.environment? .host = some s.env := rfl
  obtain ⟨k, there, rises⟩ := moved.rises rfl here
  have same : t.env = ⟨s.env.base, k⟩ := Option.some.inj there
  rw [same]
  exact rises

namespace Poised

variable {m : Nat} {s t : Host}

/-- What moves a poised host leaves it poised. -/
theorem moved (poised : s.Poised m) (positive : 0 < m)
    (all : t.heap.All (Data.Runs Callable.KeepsFrames)) (moved : s.Moved (· = .host) t) :
    t.Poised m := by
  have rises := moved.env
  have bounded := rises.bounded
  have reached := rises.reached
  rw [poised.limit] at bounded reached
  refine ⟨all, ⟨?_, bounded positive poised.nested.2⟩, reached positive poised.attained,
    rises.limit.trans poised.limit, ?_⟩
  · rw [moved.calls]
    exact poised.nested.1.trans rises.depth
  · rw [moved.settings]
    exact poised.settings

/-- A host that is cut back to the frames of a poised one, with as many calls in progress. -/
theorem dropped (poised : s.Poised m) (other : t.Poised m)
    (deep : s.env.stack.depth ≤ t.env.stack.depth) {calls : Nat} (same : calls = s.callDepth) :
    Poised m { t.unwind s.env.stack.depth with callDepth := calls } ∧
      s.env.stack.depth ≤ (t.unwind s.env.stack.depth).env.stack.depth := by
  have frames : (t.env.stack.unwind s.env.stack.depth).depth = s.env.stack.depth := by
    rw [Stack.depth_unwind]
    omega
  refine ⟨⟨other.callables, ⟨?_, ?_⟩, other.attained, other.limit, other.settings⟩, frames.ge⟩
  · show calls ≤ (t.env.stack.unwind s.env.stack.depth).depth
    rw [frames, same]
    exact poised.nested.1
  · show (t.env.stack.unwind s.env.stack.depth).depth ≤ m
    rw [frames]
    exact poised.nested.2

/-- **A call under a full stack**, by value or by name, ends in an overflow, whatever would run its
body. -/
theorem overflows (poised : s.Poised m) (positive : 0 < m) (full : s.env.stack.depth = m)
    (going : s.interrupted = false) {v : Handle} {args : List Handle}
    (takes : args.length ∈ (s.heap.data v).arities) (run : Runner) :
    overflow? (callValue run v args s) = some (m + 1, m) ∧
      ∀ name, s.scope.findOverload? name args.length = some v →
      overflow? (call run name args s) = some (m + 1, m) := by
  obtain ⟨e, held, mem⟩ := Data.exists_of_arities takes
  obtain ⟨c, has, -⟩ := Executable.get?_of_mem mem
  have keeps : c.KeepsFrames :=
    poised.callables v e (by rw [held]; rfl) c (List.mem_of_find?_eq_some has)
  have stack : s.env.stack.Full := by
    rw [Stack.Full, poised.limit, full]
    exact ⟨positive, Nat.lt_succ_self m⟩
  obtain ⟨t, ends⟩ := execute_of_full stack going keeps.2 run args
  rw [full, poised.limit] at ends
  refine ⟨?_, fun name found => ?_⟩
  · have callee : onHeap (HeapM.callable v args.length) s = .ok c s := by
      simp only [onHeap, HeapM.callable, HeapM.ask, held, has]
    simp only [callValue, Bind.bind, EStateM.bind, callee, ends, overflow?]
  · have known : s.scope.lookupOverload name args.length = .ok v := by
      simp only [Scope.lookupOverload, found]
    simp only [call, Bind.bind, EStateM.bind, resolve_of_found known held has, ends, overflow?]

end Poised

end Host

namespace Conduct

/-- The conduct of poised hosts with `k` calls in progress. Nothing is given up, and no frame is
dropped that was there. -/
def poised (m k : Nat) : Conduct where
  contents := Data.Runs Callable.KeepsFrames
  permits := Command.KeepsFrames
  counts := (· = .host)
  course :=
    { holds := fun s => s.Poised m ∧ s.callDepth = k
      goes := fun s t => s.env.stack.depth ≤ t.env.stack.depth
      refl := fun _ => Nat.le_refl _
      trans := Nat.le_trans }
  tireless := True

variable {m : Nat} {check : Host → Prop} [DecidablePred check] (positive : 0 < m)
  (checks : ∀ s, Host.Poised m s → check s)

include positive checks

/-- **A call** runs in a host that is poised with one call more, and leaves one that is poised as
before. -/
theorem poised_lawful (k : Nat) :
    (poised m k).Lawful (poised m (k + 1)) fun _ => inspected check (return ()) where
  hereditary := Data.runs_hereditary
  all held := held.1.callables
  moves held all moved :=
    ⟨⟨held.1.moved positive all moved, moved.calls.trans held.2⟩, moved.env.depth⟩
  tireless _ := trivial
  suits only := Data.runs_suits fun c same checked => ⟨same ▸ only, checked⟩
  runs known c mem := (known _ rfl c mem).1
  watched _ := by
    have nothing : (poised m k).Abides (return ()) := .pure ()
    exact nothing.inspected fun s held => checks s held.1
  command keeps resets := absurd resets keeps
  enter {s t} held all moved deeper := by
    have after := held.1.moved positive all moved
    have more : t.callDepth + 1 ≤ t.env.stack.depth := by
      rw [moved.calls]
      exact Nat.lt_of_le_of_lt held.1.nested.1 deeper
    have poised : t.entered.Poised m :=
      ⟨after.callables, ⟨more, after.nested.2⟩, after.attained, after.limit, after.settings⟩
    exact ⟨poised, by rw [← held.2, ← moved.calls]; rfl⟩
  leave {s t u} held moved deeper heldThen further := by
    have calls : u.callDepth - 1 = s.callDepth := by
      rw [heldThen.2, held.2]
      exact Nat.add_sub_cancel k 1
    have deep : s.env.stack.depth ≤ u.env.stack.depth := deeper.le.trans further
    obtain ⟨after, frames⟩ := held.1.dropped heldThen.1 deep calls
    exact ⟨⟨after, calls.trans held.2⟩, frames⟩
  unwind {s t} held heldThen gone := by
    obtain ⟨after, frames⟩ := held.1.dropped heldThen.1 gone (heldThen.2.trans held.2.symm)
    exact ⟨⟨after, heldThen.2⟩, frames⟩

/-- **Levels.** With `k` calls in progress, no more than `m - k` can be nested in them. -/
theorem poised_body {n k : Nat} (enough : m < n + k) {b : Body}
    (only : b.Only Command.KeepsFrames) : (poised m k).Abides (inspectBody check n b) := by
  induction n generalizing k b with
  | zero =>
    -- so many calls in progress would have more frames than the limit
    refine ⟨fun s held => absurd enough ?_⟩
    have nested := held.1.nested
    rw [Host.Nested, held.2] at nested
    omega
  | succ n ih =>
    have law := poised_lawful positive checks k
    have bodies : ∀ b : Body, b.Only Command.KeepsFrames →
        (poised m (k + 1)).Abides (inspectBody check n b) :=
      fun b only => ih (by omega) only
    have fits : (poised m k).Lawful (poised m (k + 1)) (Runner.inspecting check n).watch := law
    cases b with
    | routine r => exact (fits.abides_perform bodies r).inspected fun s held => checks s held.1
    | script code =>
      exact (fits.abides_evalBody bodies code only).inspected fun s held => checks s held.1

/-- **Evaluations** in a poised host keep to it, with levels for the calls that can be nested in
those in progress. -/
theorem poised_eval {n k : Nat} (enough : m ≤ n + k) {e : Expr}
    (only : e.Only Command.KeepsFrames) :
    (poised m k).Abides (inspected check (e.eval (.inspecting check n))) := by
  have fits : (poised m k).Lawful (poised m (k + 1)) (Runner.inspecting check n).watch :=
    poised_lawful positive checks k
  have bodies : ∀ b : Body, b.Only Command.KeepsFrames →
      (poised m (k + 1)).Abides (inspectBody check n b) :=
    fun b only => poised_body positive checks (by omega) only
  exact (fits.abides_eval bodies e only).inspected fun s held => checks s held.1

end Conduct

/-! ## Sessions -/

namespace Host

variable {m : Nat} {s : Host} {e : Expr}

/-- **An evaluation in a poised host** passes its inspection, which changes nothing of it, and does
not give up. -/
theorem Poised.eval (poised : s.Poised m) (positive : 0 < m) (only : e.Only Command.KeepsFrames)
    {levels : Nat} (enough : m ≤ levels + s.callDepth) {check : Host → Prop} [DecidablePred check]
    (checks : ∀ t, t.Poised m → check t) :
    inspected check (e.eval (.inspecting check levels)) s = e.eval (.free levels) s ∧
      ¬ GaveUp (e.eval (.free levels) s) ∧
      (endState (e.eval (.free levels)) s).Poised m ∧
      (endState (e.eval (.free levels)) s).callDepth = s.callDepth := by
  have follows := (Conduct.poised_eval positive checks enough only).follows s ⟨poised, rfl⟩
  have ends := follows.2 trivial
  have approx : Approx (inspected check (e.eval (.inspecting check levels)))
      (e.eval (.free levels)) := by
    apply approx_inspected
    apply approx_eval
    · exact approx_inspectBody levels
    · intro act
      show Approx (inspected check (return ())) (return ())
      exact approx_inspected fun _ => .inr rfl
  have same := (approx s).resolve_left ends
  have after := follows.1.atEnd.1
  rw [endState, same] at after
  exact ⟨same, same ▸ ends, after⟩

/-- A session under a limit starts poised. -/
theorem session_poised (session : Session) (bounded : 0 < session.settings.stackLimit) :
    session.host.Poised session.settings.stackLimit ∧ session.host.callDepth = 0 := by
  have bare : (bare session.settings).Poised session.settings.stackLimit :=
    ⟨Heap.empty_all, ⟨le_rfl, Nat.zero_le _⟩, Nat.zero_le _, rfl, rfl⟩
  have install :
      (Conduct.moving (Data.Runs Callable.KeepsFrames) (· = .host)).Abides Library.install :=
    Conduct.Moving.install fun r => Data.runs_suits fun c same checked =>
      ⟨by rw [same]; trivial, checked⟩
  unfold Session.host
  split
  · exact ⟨bare, rfl⟩
  · obtain ⟨all, moved⟩ := (install.follows _ bare.callables).1.atEnd
    exact ⟨bare.moved bounded all moved, moved.calls⟩

/-- **One step** of a session leaves a poised host poised. -/
theorem Poised.step (poised : s.Poised m) (positive : 0 < m) (only : e.Only Command.KeepsFrames)
    (idle : s.callDepth = 0) :
    (Session.step none s e).2.Poised m ∧ (Session.step none s e).2.callDepth = 0 := by
  have clear : Poised m { s with log := [] } :=
    ⟨poised.callables, poised.nested, poised.attained, poised.limit, poised.settings⟩
  have enough : m ≤ s.settings.stackLimit + spareLevels + s.callDepth := by
    rw [poised.settings, Nat.add_assoc]
    exact Nat.le_add_right _ _
  obtain ⟨-, -, after, calls⟩ := clear.eval positive only enough fun _ => Poised.nested
  rw [step_eq]
  exact ⟨after, calls.trans idle⟩

/-- **A session** does. -/
theorem Poised.after (poised : s.Poised m) (positive : 0 < m) {es : List Expr}
    (only : Expr.AllOnly Command.KeepsFrames es) (idle : s.callDepth = 0) :
    (Session.after s es).Poised m ∧ (Session.after s es).callDepth = 0 := by
  induction es generalizing s with
  | nil => exact ⟨poised, idle⟩
  | cons e es ih =>
    obtain ⟨first, rest⟩ := only
    obtain ⟨next, idle⟩ := poised.step positive first idle
    exact ih next rest idle

end Host

/-- **Bounded programs end.** Let the stack of a host have a limit of `m` frames, and let no command
in a program, in the bodies of its functions or outside of them, drop frames of the host or put
another environment in the place of its own. After any steps of it, an evaluation ends with a result
or with a fault. Levels for `m` nested calls are enough, and with more of them it ends the same.

The host is poised before it and after it, and at every moment: if before every act and around every
body it is given up unless some condition holds that poised hosts meet, such as that there are at
most as many calls in progress as frames, and at most `m` frames, then still it ends the same. What
cuts recursion off is the overflow: in a poised host with `m` frames, every function, handler or
predicate that is called is refused, by value and by name. -/
theorem bounded_programs_end (session : Session) (bounded : 0 < session.settings.stackLimit)
    (es : List Expr) (e : Expr) (only : Expr.AllOnly Command.KeepsFrames (e :: es)) :
    let m := session.settings.stackLimit
    let s := Session.after session.host es
    ((∃ y t, e.evalTop s = .ok y t) ∨ ∃ f t, e.evalTop s = .error (.fault f) t) ∧
    (∀ levels, m ≤ levels → e.eval (.free levels) s = e.evalTop s) ∧
    s.Poised m ∧ (endState e.evalTop s).Poised m ∧
    (∀ (check : Host → Prop) [DecidablePred check], (∀ t, t.Poised m → check t) →
      inspected check (e.eval (.inspecting check m)) s = e.evalTop s) ∧
    ∀ (t : Host) (v : Handle) (args : List Handle) (run : Runner), t.Poised m →
    t.env.stack.depth = m → t.interrupted = false →
      args.length ∈ (t.heap.data v).arities →
      overflow? (callValue run v args t) = some (m + 1, m) ∧
        ∀ name, t.scope.findOverload? name args.length = some v →
        overflow? (call run name args t) = some (m + 1, m) := by
  intro m s
  obtain ⟨only, before⟩ := only
  obtain ⟨start, none⟩ := Host.session_poised session bounded
  obtain ⟨poised, -⟩ := start.after bounded before none
  have enough : m ≤ m + s.callDepth := Nat.le_add_right m s.callDepth
  obtain ⟨-, ends, after, -⟩ := poised.eval bounded only enough fun _ => Host.Poised.nested
  have top : e.evalTop s = e.eval (.free m) s := by
    have levels : m ≤ s.settings.stackLimit + spareLevels := by
      rw [poised.settings]
      exact Nat.le_add_right _ _
    exact eval_of_more_levels ends levels
  refine ⟨?_, fun levels enough => ?_, poised, ?_, fun check _ checks => ?_,
    fun t v args run held full going takes => ?_⟩
  · rw [top]
    cases run : e.eval (.free m) s with
    | ok y t => exact .inl ⟨y, t, rfl⟩
    | error halt t =>
      cases halt with
      | fault f => exact .inr ⟨f, t, rfl⟩
      | exhausted => exact absurd ⟨t, run⟩ ends
  · rw [top]
    exact eval_of_more_levels ends enough
  · rw [endState, top]
    exact after
  · rw [top]
    exact (poised.eval bounded only enough checks).1
  · exact held.overflows bounded full going takes run

/-- Two functions that call each other, and a handler that raises the fault it handles, under a
limit of three frames: both end in an overflow. With three frames on the stack already, the first
call does, whatever would run the body. -/
theorem bounded_programs_end_three :
    let session : Session := ⟨{ Settings.default with stackLimit := 3 }, true, [], none⟩
    let es : List Expr :=
      [.bind (.symbol .host "f") (.function "f" [] [.call "g" []]),
        .bind (.symbol .host "g") (.function "g" [] [.call "f" []]), .bind (.handler .rangeError)
          (.function "h" [] [.guard "h" [.raise (.raised .rangeError "")]])]
    let s := Session.after session.host es
    let t := Session.after s [.command (.pushFrame .host), .command (.pushFrame .host),
      .command (.pushFrame .host)]
    overflow? (inspected (Host.Nested 3) ((Expr.call "f" []).eval (.inspecting (Host.Nested 3) 3))
      s) = some (4, 3) ∧
      overflow? ((Expr.guard "g" [.raise (.raised .rangeError "")]).evalTop s) = some (4, 3) ∧
      ∀ run, overflow? (call run "f" [] t) = some (4, 3) := by
  intro session es s t
  have defines : Expr.AllOnly Command.KeepsFrames es := by simp [es, Expr.AllOnly, Expr.Only]
  have calls : (Expr.call "f" []).Only Command.KeepsFrames := trivial
  have guards : (Expr.guard "g" [.raise (.raised .rangeError "")]).Only Command.KeepsFrames :=
    ⟨trivial, trivial⟩
  obtain ⟨-, direct, -, -, passes, refuses⟩ :=
    bounded_programs_end session (by decide) es _ ⟨calls, defines⟩
  obtain ⟨-, handled, -⟩ := bounded_programs_end session (by decide) es _ ⟨guards, defines⟩
  refine ⟨?_, ?_, fun run => ?_⟩
  · rw [passes (Host.Nested 3) fun _ => Host.Poised.nested, ← direct 3 le_rfl]
    decide +kernel
  · rw [← handled 3 le_rfl]
    decide +kernel
  · obtain ⟨start, none⟩ := Host.session_poised session (by decide)
    obtain ⟨poised, idle⟩ := start.after (by decide) defines none
    have pushes : Expr.AllOnly Command.KeepsFrames
        [.command (.pushFrame .host), .command (.pushFrame .host),
          .command (.pushFrame .host)] := by
      simp [Expr.AllOnly, Expr.Only, Command.KeepsFrames, Command.Resets]
    obtain ⟨poised, -⟩ := poised.after (by decide) pushes idle
    exact (refuses t ⟨0⟩ [] run poised (by decide +kernel) (by decide +kernel)
      (by decide +kernel)).2 "f" (by decide +kernel)

end ScriptHost
