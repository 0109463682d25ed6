import ScriptHost.Proofs.Host.Behaviour
import ScriptHost.Proofs.Host.Cloning
import ScriptHost.Proofs.Host.Watched

/-!
# The limit of a stack

The frames of every environment stay within its limit and within the greatest depth it has had, in
every reachable host (`stack_within_limit`). As long as no other environment comes in its place, an
environment keeps its base table and its limit, and the greatest depth it has had never falls,
whatever programs do: that is its life, a run in which `Act.Spares` stops nothing.

A frame is refused exactly if it would pass the limit, and then nothing has changed, whether it is
pushed empty, as a table that has been made before, or for a while, by a guard that drops it at the
end (`framed`).
-/

set_option autoImplicit false

namespace ScriptHost

open HostM Course

/-! ## Pushing a frame -/

/-- If a name keeps what stands under it, the list stays as it is. -/
theorem Named.put_of_find {α : Type} {name : String} {a : α} {l : List (String × α)}
    (found : find name l = some a) : put name a l = l := by
  induction l with
  | nil => cases found
  | cons p l ih =>
    obtain ⟨n, b⟩ := p
    by_cases here : n = name
    · simp only [find, here, if_true, Option.some.injEq] at found
      simp only [put, here, if_true, found]
    · simp only [find, here, if_false] at found
      simp only [put, here, if_false, ih found]

namespace Stack

/-- The stack with one more frame. -/
def pushed (frame : SymbolTable) (k : Stack) : Stack :=
  { k with frames := frame :: k.frames, attained := max k.attained (k.depth + 1) }

/-- One more frame would pass the limit. -/
def Full (k : Stack) : Prop := 0 < k.limit ∧ k.limit < k.depth + 1

/-- The frames are within the limit, if there is one, and within the greatest depth. -/
def Within (k : Stack) : Prop := (0 < k.limit → k.depth ≤ k.limit) ∧ k.depth ≤ k.attained

instance decidableFull (k : Stack) : Decidable k.Full := inferInstanceAs (Decidable (_ ∧ _))

theorem isFull_iff {k : Stack} : k.isFull = true ↔ k.Full := by simp [isFull, Full]

theorem push_of_not_full {k : Stack} (room : ¬ k.Full) (frame : SymbolTable) :
    push frame k = .ok () (k.pushed frame) := by
  have spare : k.isFull = false := by
    rw [Bool.eq_false_iff]
    exact fun full => room (isFull_iff.mp full)
  simp only [push, spare, Bool.false_eq_true, if_false, pushed]

end Stack

namespace Host

variable {s : Host} {name : EnvName} {e : Environment}

theorem withEnvironment_self (here : s.environment? name = some e) :
    s.withEnvironment name e = s := by
  cases name with
  | host =>
    cases here
    rfl
  | named n =>
    have same : Named.put n e s.environments = s.environments := Named.put_of_find here
    show { s with environments := Named.put n e s.environments } = s
    rw [same]

/-- A base table that stays what it was. -/
theorem setBase_self (s : Host) (i : Nat) : s.bases.setIfInBounds i (s.base i) = s.bases := by
  apply Array.ext (by simp)
  intro j _ inside
  rw [Array.getElem_setIfInBounds inside]
  split
  next same => simp [base, same, inside]
  next => rfl

/-- A step over a scope that changes nothing but the stack. -/
theorem withScope_stack (k : Stack) :
    s.withScope name e { s.scopeOf e with stack := k } = s.withEnvironment name ⟨e.base, k⟩ := by
  show { s with bases := s.bases.setIfInBounds e.base (s.base e.base) }.withEnvironment name
    ⟨e.base, k⟩ = _
  rw [setBase_self]

/-- **A refused frame.** -/
theorem run_push_of_full (here : s.environment? name = some e) (full : e.stack.Full)
    (frame : SymbolTable) :
    onScope name (Scope.push frame) s =
      .error (.fault (.stackOverflow (e.stack.depth + 1) e.stack.limit)) s := by
  have refused : Scope.push frame (s.scopeOf e) =
      .error (.stackOverflow (e.stack.depth + 1) e.stack.limit)
        { s.scopeOf e with stack := e.stack } := by
    have stack : (s.scopeOf e).stack = e.stack := rfl
    simp only [Scope.push, Scope.onStack, stack, Stack.push_of_isFull (Stack.isFull_iff.mpr full)]
  rw [run_onScope_error here refused, withScope_stack]
  show _ = EStateM.Result.error _ s
  rw [withEnvironment_self here]

/-- **A frame that is pushed.** -/
theorem run_push_of_not_full (here : s.environment? name = some e) (room : ¬ e.stack.Full)
    (frame : SymbolTable) :
    onScope name (Scope.push frame) s =
      .ok () (s.withEnvironment name ⟨e.base, e.stack.pushed frame⟩) := by
  have pushed : Scope.push frame (s.scopeOf e) =
      .ok () { s.scopeOf e with stack := e.stack.pushed frame } := by
    have stack : (s.scopeOf e).stack = e.stack := rfl
    simp only [Scope.push, Scope.onStack, stack, Stack.push_of_not_full room]
  rw [run_onScope here pushed, withScope_stack]

/-- A frame can always be dropped. -/
theorem exists_popFrame (name : EnvName) (s : Host) : ∃ b t, popFrame name s = .ok b t := by
  obtain ⟨e, t, run⟩ := Conduct.Moving.exists_environment name s
  refine ⟨decide (e.stack.depth ≠ 0), t.withEnvironment name { e with stack := e.stack.pop }, ?_⟩
  simp only [popFrame, Bind.bind, EStateM.bind, run, run_putEnvironment]
  rfl

/-- A guard ends as what it guards does, once its frame has been pushed. -/
theorem framed_cases {α : Type} {step : HostM α} {t : Host}
    (pushed : onScope name (Scope.push .empty) s = .ok () t) :
    (∃ a u v, step t = .ok a u ∧ framed name step s = .ok a v) ∨ ∃ f u v, step t = .error f u ∧
      framed name step s = .error f v := by
  cases ends : step t with
  | ok a u =>
    obtain ⟨b, v, popped⟩ := exists_popFrame name u
    exact .inl ⟨a, u, v, rfl, by simp only [framed, Bind.bind, EStateM.bind, pushed, ends, popped]⟩
  | error f u =>
    obtain ⟨b, v, popped⟩ := exists_popFrame name u
    exact .inr ⟨f, u, v, rfl, by simp only [framed, Bind.bind, EStateM.bind, pushed, ends, popped]⟩

end Host

/-! ## The life of an environment -/

/-- Whether an act leaves the environment of a name in its place. -/
def Act.Spares (name : EnvName) : Act → Host → Prop
  | .command (.newEnv env _), _ => env ≠ name
  | .command (.cloneEnv _ env _), _ => env ≠ name
  | _, _ => True

instance Act.decidableSpares (name : EnvName) (act : Act) (s : Host) :
    Decidable (act.Spares name s) := by
  unfold Act.Spares
  split <;> infer_instance

/-- The environment of a name is still the one it was: its base table and its limit are the same,
and the greatest depth it has had is no less. -/
def Host.Lives (name : EnvName) (s t : Host) : Prop :=
  ∀ e, s.environment? name = some e →
    ∃ k, t.environment? name = some ⟨e.base, k⟩ ∧ k.limit = e.stack.limit ∧
    e.stack.attained ≤ k.attained

namespace Host.Lives

variable {name : EnvName} {s t u : Host}

theorem of_same (same : t.environment? name = s.environment? name) : Lives name s t := by
  intro e here
  exact ⟨e.stack, by rw [same, here], rfl, le_rfl⟩

theorem trans (first : Lives name s t) (second : Lives name t u) : Lives name s u := by
  intro e here
  obtain ⟨k, there, limit, attained⟩ := first e here
  obtain ⟨l, last, limit', attained'⟩ := second _ there
  exact ⟨l, last, limit'.trans limit, attained.trans attained'⟩

theorem of_moved (moved : s.Moved (· = name) t) : Lives name s t := by
  intro e here
  obtain ⟨k, there, rises⟩ := moved.rises rfl here
  exact ⟨k, there, rises.limit, rises.attained⟩

/-- Frames that are dropped take nothing from the greatest depth. -/
theorem unwind (s : Host) (depth : Nat) : Lives name s (s.unwind depth) := by
  cases name with
  | host =>
    intro e here
    cases here
    exact ⟨_, rfl, rfl, le_rfl⟩
  | named n => exact of_same rfl

theorem popFrame (s : Host) : Lives name s (endState (popFrame name) s) := by
  intro e here
  have run : HostM.popFrame name s =
      .ok (decide (e.stack.depth ≠ 0))
        (s.withEnvironment name { e with stack := e.stack.pop }) := by
    simp only [HostM.popFrame, Bind.bind, EStateM.bind, run_environment here, run_putEnvironment]
    rfl
  rw [endState, run]
  exact ⟨e.stack.pop, environment?_withEnvironment_self, rfl, le_rfl⟩

theorem clearScope (s : Host) : Lives name s (endState (clearScope name) s) := by
  intro e here
  have run : HostM.clearScope name s = .ok () (s.withScope name e (s.scopeOf e).clear) :=
    run_onScope here rfl
  rw [endState, run]
  exact ⟨_, environment?_withScope_self, rfl, le_rfl⟩

end Host.Lives

namespace Conduct

/-- The conduct of hosts in which the environment of a name lives. -/
def living (name : EnvName) : Conduct where
  contents _ := True
  permits _ := True
  counts := (· = name)
  course :=
    { holds := fun _ => True
      goes := Host.Lives name
      refl := fun _ => .of_same rfl
      trans := .trans }
  tireless := False

variable {name : EnvName}

instance hereditary_true : Data.Hereditary fun _ => True := by constructor <;> intros <;> trivial

/-- A conduct that may give up is one of ends alone. -/
theorem living_of_end {α : Type} {m : HostM α} (lives : ∀ s, Host.Lives name s (endState m s)) :
    (living name).Abides m := by
  refine ⟨fun s _ => ⟨?_, False.elim⟩⟩
  have gone := lives s
  cases run : m s with
  | ok a t =>
    rw [endState, run] at gone
    exact .of_ok run trivial gone trivial
  | error f t =>
    rw [endState, run] at gone
    exact .of_error run trivial gone

section Passing

variable {passes : Act → Host → Prop} [∀ act s, Decidable (passes act s)]

theorem living_watched (name : EnvName) (act : Act) :
    (living name).Abides (stopUnless passes act) := by
  apply living_of_end
  intro s
  by_cases pass : passes act s
  · rw [endState, stopUnless_of_passes pass]
    exact .of_same rfl
  · rw [endState, stopUnless_of_not_passes pass]
    exact .of_same rfl

/-- A command that is never let pass. -/
theorem living_stopped {c : Command} (stops : ∀ s, ¬ passes (.command c) s) :
    (living name).Abides (do stopUnless passes (.command c); c.perform) := by
  apply living_of_end
  intro s
  have stopped : (do stopUnless passes (.command c); c.perform : HostM Yield) s =
      .error .exhausted s := by
    simp only [Bind.bind, EStateM.bind, stopUnless_of_not_passes (stops s)]
  rw [endState, stopped]
  exact .of_same rfl

variable (spares : ∀ act s, passes act s → act.Spares name s)

include spares

theorem living_command {c : Command} (resets : c.Resets (· = name)) :
    (living name).Abides (do stopUnless passes (.command c); c.perform) := by
  have watched : (living name).Abides (stopUnless passes (.command c)) := living_watched name _
  cases c with
  | newEnv env limit => exact living_stopped fun s pass => spares _ s pass resets
  | cloneEnv source env kind => exact living_stopped fun s pass => spares _ s pass resets
  | popFrame env =>
    obtain rfl : env = name := resets
    have popped : (living env).Abides (popFrame env) := living_of_end .popFrame
    have performed : (living env).Abides (Command.popFrame env).perform := .bind _ _
    exact .bind _ _
  | clearEnv env =>
    obtain rfl : env = name := resets
    have cleared : (living env).Abides (clearScope env) := living_of_end .clearScope
    have performed : (living env).Abides (Command.clearEnv env).perform := .effect _
    exact .bind _ _
  | _ => exact absurd resets id

/-- **An environment lives** as long as nothing else comes in its place. -/
theorem living_lawful : (living name).Lawful (living name) (stopUnless passes) where
  hereditary := hereditary_true
  all _ _ := trivial
  moves _ _ moved := ⟨trivial, .of_moved moved⟩
  tireless tireless := tireless
  suits _ _ _ _ := trivial
  runs _ c _ := c.body.only_of_every fun _ => trivial
  watched := living_watched name
  command _ := living_command spares
  enter _ _ _ _ := trivial
  leave {s t u} _ moved _ _ further := by
    refine ⟨trivial, ?_⟩
    have entered : Host.Lives name t t.entered := .of_same rfl
    have left : Host.Lives name u u.left := .of_same rfl
    exact (Host.Lives.of_moved moved).trans
      (entered.trans (further.trans (left.trans (.unwind _ _))))
  unwind _ _ gone := ⟨trivial, gone.trans (.unwind _ _)⟩

/-- An evaluation, as far as it gets. -/
theorem living_eval (program : Expr) (levels : Nat) (s : Host) :
    Host.Lives name s (endState (program.eval (.watched (stopUnless passes) levels)) s) := by
  have only : program.Only (living name).permits := program.only_of_every fun _ => trivial
  have abides := (living_lawful spares).abides_watched id levels only
  exact (abides.follows s trivial).1.atEnd.2

end Passing

end Conduct

namespace Host

variable {name : EnvName} {s t : Host} {e : Environment}

/-- **One step** of a life. -/
theorem WatchedStep.lives (step : WatchedStep (stopUnless (Act.Spares name)) s t) :
    Lives name s t := by
  cases step with
  | evaluate program levels unstopped =>
    rw [← endState_unstopped unstopped]
    exact Conduct.living_eval (fun _ _ spares => spares) program levels s
  | enter c args _ =>
    have all : s.heap.All fun _ => True := fun _ => trivial
    have bound := Conduct.Moving.follows_bindParams (· = name) c args all
    exact .of_moved bound.1.atEnd.2
  | leave depth => exact .unwind s depth
  | hold _ _ _ | count _ | log _ => exact .of_same (by cases name <;> rfl)

/-- **A life.** -/
theorem WatchedRun.lives (run : WatchedRun (stopUnless (Act.Spares name)) s t) :
    Lives name s t := by
  induction run with
  | refl => exact .of_same rfl
  | tail _ step ih => exact ih.trans step.lives

theorem Tidy.within (tidy : s.Tidy False) (here : s.environment? name = some e) :
    e.stack.Within := by
  have stack := (tidy.environment? here).stack
  exact ⟨stack.bounded, stack.attained⟩

/-- Hosts stay tidy up to wherever an evaluation is stopped. -/
theorem Tidy.stopped {passes : Act → Host → Prop} [∀ act s, Decidable (passes act s)]
    (tidy : s.Tidy False) (program : Expr) (levels : Nat) :
    (endState (program.eval (.watched (stopUnless passes) levels)) s).Tidy False := by
  have retains : Retains False (stopUnless passes) := by
    intro act s
    by_cases pass : passes act s
    · exact .inl ⟨stopUnless_of_passes pass,
        fun a b _ held => held.setHeap (Heap.lasts_assign a b s.heap).atEnd.2⟩
    · exact .inr ⟨.exhausted, stopUnless_of_not_passes pass⟩
  exact ((tidy_lawful retains).leads_watched program levels tidy).atEnd.1

/-- A table is taken from its name, and pushed. -/
theorem run_pushTable (table : String) (s : Host) :
    (Command.pushTable name table).perform s =
      effect (onScope name (Scope.push ((Named.find table s.tables).getD .empty)))
        { s with tables := Named.drop table s.tables } :=
  rfl

/-- **The limit of a stack.** The stack of every environment of a reachable host stays within its
limit, if it has one, and within the greatest depth that it has had, also in the middle of an
evaluation, wherever that is stopped. As long as nothing else comes in its place the environment
lives, and the greatest depth does not fall. A frame is refused exactly if it would pass the limit:
pushed empty, as a table, or by a guard. If it is refused then nothing has changed, but that the
table is no longer there under its name; otherwise it is on top. -/
theorem stack_within_limit (reachable : s.Reachable) (here : s.environment? name = some e) :
    e.stack.Within ∧
    (∀ t, WatchedRun (stopUnless (Act.Spares name)) s t → Lives name s t) ∧
    (∀ (passes : Act → Host → Prop) [∀ act u, Decidable (passes act u)] (program : Expr) levels,
      let t := endState (program.eval (.watched (stopUnless passes) levels)) s
      (∀ f, t.environment? name = some f → f.stack.Within) ∧
      ((∀ act u, passes act u → act.Spares name u) → Lives name s t)) ∧
    (e.stack.Full →
      let overflow := Halt.fault (.stackOverflow (e.stack.depth + 1) e.stack.limit)
      (Command.pushFrame name).perform s = .error overflow s ∧
      (∀ table, (Command.pushTable name table).perform s =
        .error overflow { s with tables := Named.drop table s.tables }) ∧
      ∀ (α : Type) (guarded : HostM α), framed name guarded s = .error overflow s) ∧
    (¬ e.stack.Full →
      let pushed := s.withEnvironment name ⟨e.base, e.stack.pushed .empty⟩
      (Command.pushFrame name).perform s = .ok .nothing pushed ∧
      (∀ table, ∃ t, (Command.pushTable name table).perform s = .ok .nothing t ∧
        t.environment? name = some ⟨e.base,
          e.stack.pushed ((Named.find table s.tables).getD .empty)⟩) ∧
      ∀ (α : Type) (guarded : HostM α),
      (∃ a u v, guarded pushed = .ok a u ∧ framed name guarded s = .ok a v) ∨
        ∃ f u v, guarded pushed = .error f u ∧ framed name guarded s = .error f v) := by
  have tidy := reachable.tidy
  have taken (table : String) :
      { s with tables := Named.drop table s.tables }.environment? name = some e := by
    cases name <;> exact here
  refine ⟨tidy.within here, fun t run => run.lives, fun passes _ program levels => ?_,
    fun full => ?_, fun room => ?_⟩
  · exact ⟨fun f there => (tidy.stopped program levels).within there,
      fun spares => Conduct.living_eval spares program levels s⟩
  · intro overflow
    have refused := run_push_of_full here full
    refine ⟨?_, fun table => ?_, fun α guarded => ?_⟩
    · simp only [Command.perform, effect, Bind.bind, EStateM.bind, refused, overflow]
    · have there := taken table
      simp only [run_pushTable, effect, Bind.bind, EStateM.bind,
        run_push_of_full there full, overflow]
    · simp only [framed, Bind.bind, EStateM.bind, refused, overflow]
  · intro pushed
    have run := run_push_of_not_full here room
    refine ⟨?_, fun table => ?_, fun α guarded => framed_cases (run .empty)⟩
    · simp only [Command.perform, effect, Bind.bind, EStateM.bind, run, pushed]
      rfl
    · have there := taken table
      refine ⟨_, ?_,
        environment?_withEnvironment_self (s := { s with tables := Named.drop table s.tables })⟩
      simp only [run_pushTable, effect, Bind.bind, EStateM.bind, run_push_of_not_full there room]
      rfl

/-- An environment with two frames and a limit of two: a third one is refused, and after both have
been dropped, two is still the greatest depth. -/
theorem stack_within_limit_two :
    let env := EnvName.named "small"
    let s := Session.after (.bare .default)
      [.command (.newEnv env (some 2)), .command (.pushFrame env), .command (.pushFrame env)]
    let program : Expr := .sequence [.command (.popFrame env), .command (.clearEnv env)]
    (Command.pushFrame env).perform s = .error (.fault (.stackOverflow 3 2)) s ∧
      ∃ k, (endState (program.eval (.free 9)) s).environment? env = some ⟨1, k⟩ ∧
      2 ≤ k.attained := by
  intro env s program
  have reachable : s.Reachable := reachable_after ⟨.default, true, [], none⟩ _
  have here : s.environment? env = some ⟨1, ⟨[.empty, .empty], 2, 2⟩⟩ := rfl
  have unstopped : Unstopped (stopUnless (Act.Spares env)) program 9 s :=
    unstopped_of_not_gaveUp approx_stopUnless (by decide +kernel)
  obtain ⟨-, life, -, refuses, -⟩ := stack_within_limit reachable here
  obtain ⟨k, there, -, attained⟩ := life _ (.single (.evaluate program 9 unstopped)) _ here
  exact ⟨(refuses (by decide)).1, k, there, attained⟩

end Host

end ScriptHost
