import ScriptHost.Proofs.Host.Approximation
import ScriptHost.Proofs.Host.Handlers

/-!
# Faults that nobody catches

A fault of class `terminate` asks a program to end. There are no handlers for it, and a guard lets
it pass. What follows for a whole program is said with `Underway m t w s`: on the way from `s`, the
computation `w` comes to run `m` in `t`. A computation leads into the parts that it is a sequence
of, into the bodies that it calls, into the statements that it guards, and into the handlers for
their faults. Sorting and searching are sequences of calls of a predicate, and so is the invocation
of handlers by name, so they are led into as well. What catches every fault, `attempt` and
`outcome`, is not.

If `m` raises a termination there, the same comes out of `w`, with the state of the raise but for
frames that have been dropped and calls that have been counted out (`Underway.comes_out`). So no
body has been run in between, of a handler or else: the runner is any, also one that puts down in
the log what it runs.

The other way to say it asks for no path through a computation. Let a runner do something else in
place of bodies that end in a termination (`Runner.Replaces`). If that makes a difference to an
expression or a routine at all, then one of those terminations has come out of it (`Runner.Shows`).
-/

set_option autoImplicit false

namespace ScriptHost

open HostM

theorem Fault.not_isCatchable {f : Fault} (kind : f.kind = .terminate) : f.isCatchable = false := by
  rw [isCatchable, kind]
  rfl

/-! ## Frames dropped and calls counted out -/

namespace Stack

theorem unwind_of_le {k : Stack} {depth : Nat} (low : k.depth ≤ depth) : k.unwind depth = k := by
  rw [unwind, Nat.sub_eq_zero_of_le low, List.drop_zero]

/-- A stack that is cut down twice is cut down to the lower depth. -/
theorem unwind_unwind (k : Stack) (a b : Nat) : (k.unwind a).unwind b = k.unwind (min a b) := by
  have dropped : k.depth - a + ((k.unwind a).depth - b) = k.depth - min a b := by
    rw [depth_unwind]
    omega
  rw [unwind, unwind, List.drop_drop, unwind, ← dropped]
  rfl

end Stack

namespace Host

/-- A host with its own frames cut down to a depth and another number of calls in progress. -/
def dropped (s : Host) (depth calls : Nat) : Host := { s.unwind depth with callDepth := calls }

theorem dropped_self (s : Host) : s.dropped s.env.stack.depth s.callDepth = s := by
  rw [dropped, unwind, Stack.unwind_of_le le_rfl]

/-- So is a host that is cut down after frames were dropped. -/
theorem unwind_dropped (s : Host) (depth calls lower : Nat) :
    (s.dropped depth calls).unwind lower = s.dropped (min depth lower) calls := by
  simp only [dropped, unwind, Stack.unwind_unwind]

end Host

namespace Escape

/-- Those of some faults that cannot be caught, as they come out: in the state that they left, with
frames dropped and calls counted out. -/
def faults (P : Fault → Host → Prop) : Escape where
  Has e x := ∃ f t depth calls, P f t ∧ f.isCatchable = false ∧ e = .fault f ∧
    x = t.dropped depth calls
  uncaught := by
    rintro f x ⟨f, t, depth, calls, failed, uncaught, ⟨⟩, out⟩
    exact uncaught
  unwind := by
    rintro e x lower ⟨f, t, depth, calls, failed, uncaught, ended, rfl⟩
    exact ⟨f, t, min depth lower, calls, failed, uncaught, ended,
      t.unwind_dropped depth calls lower⟩
  counted := by
    rintro e x fewer ⟨f, t, depth, calls, failed, uncaught, ended, rfl⟩
    exact ⟨f, t, depth, fewer, failed, uncaught, ended, rfl⟩

variable {P : Fault → Host → Prop} {α : Type} {m : HostM α} {s t : Host} {f : Fault}

/-- A fault that is not caught is a way out. -/
theorem ended_of_failed (failed : P f t) (uncaught : f.isCatchable = false)
    (out : m s = .error (.fault f) t) : (faults P).Ended (m s) := by
  refine ⟨.fault f, t, out, f, t, t.env.stack.depth, t.callDepth, failed, uncaught, rfl, ?_⟩
  rw [t.dropped_self]

/-- A way out is such a fault, with frames dropped and calls counted out since. -/
theorem failed_of_ended (ended : (faults P).Ended (m s)) :
    ∃ f t depth calls, P f t ∧ m s = .error (.fault f) (t.dropped depth calls) := by
  obtain ⟨e, x, out, f, t, depth, calls, failed, uncaught, rfl, rfl⟩ := ended
  exact ⟨f, t, depth, calls, failed, out⟩

end Escape

/-! ## What a computation comes to -/

namespace HostM

/-- On the way from the state `s`, the computation `w` comes to run `m` in the state `t`. -/
inductive Underway {α : Type} (m : HostM α) (t : Host) : {β : Type} → HostM β → Host → Prop where
  | here : Underway m t m t
  -- the first part of a sequence, or one that comes after a part that has a result
  | first {β γ : Type} {w : HostM β} {k : β → HostM γ} {s : Host} (inner : Underway m t w s) :
    Underway m t (w >>= k) s
  | next {β γ : Type} {w : HostM β} {k : β → HostM γ} {s u : Host} {b : β} (ran : w s = .ok b u)
    (inner : Underway m t (k b) u) : Underway m t (w >>= k) s
  -- the body of a call
  | called {run : Runner} {c : Callable} {args vs : List Handle} {s u : Host}
    (free : s.interrupted = false)
    (bound : bindParams c args s = .ok vs u) (inner : Underway m t (run.body c.body) u.entered) :
    Underway m t (execute run c args) s
  -- a statement under guard, or the handlers for its fault
  | guarded {run : Runner} {location : String} {statement : HostM Handle} {s : Host}
    (inner : Underway m t statement s) : Underway m t (guard run location statement) s
  | handling {run : Runner} {location : String} {statement : HostM Handle} {s u : Host} {f : Fault}
    (failed : statement s = .error (.fault f) u) (caught : f.isCatchable = true)
    (inner : Underway m t (invokeHandlers run f.kind location f.message)
      (u.unwind s.env.stack.depth)) :
    Underway m t (guard run location statement) s

/-- The ways to raise a fault of class `terminate`: by the routine for it, by raising one, or by a
call while the interrupt flag is set. -/
inductive Terminates : {α : Type} → HostM α → Host → Fault → Prop where
  | routine (run : Runner) (t : Host) : Terminates (Routine.perform run .terminate) t .terminated
  | raise (run : Runner) {f : Fault} (t : Host) (kind : f.kind = .terminate) :
    Terminates ((Expr.raise f).eval run) t f
  | interrupt (run : Runner) (c : Callable) (args : List Handle) {t : Host}
    (interrupted : t.interrupted = true) : Terminates (execute run c args) t .interrupted

variable {α β : Type} {m : HostM α} {w : HostM β} {s t u : Host} {f : Fault}

/-- What terminates raises its fault where it stands. -/
theorem Terminates.raised (terminates : Terminates m t f) :
    m t = .error (.fault f) t ∧ f.kind = .terminate := by
  cases terminates with
  | routine run => exact ⟨rfl, rfl⟩
  | raise run t kind =>
    rw [Expr.eval]
    exact ⟨rfl, kind⟩
  | interrupt run c args interrupted =>
    refine ⟨?_, rfl⟩
    simp only [execute, Bind.bind, EStateM.bind, look, interrupted, if_true]
    rfl

/-- A call that is not interrupted and whose parameters can be bound. -/
theorem run_execute {run : Runner} {c : Callable} {args vs : List Handle}
    (free : s.interrupted = false) (bound : bindParams c args s = .ok vs u) :
    execute run c args s = always (run.body c.body) (fun x => x.left.unwind s.env.stack.depth)
      u.entered := by
  have entered :
      execute run c args s = always (counted (run.body c.body)) (·.unwind s.env.stack.depth) u := by
    simp only [execute, Bind.bind, EStateM.bind, look, free, Bool.false_eq_true, if_false, bound]
  have body : counted (run.body c.body) u = always (run.body c.body) Host.left u.entered := rfl
  rw [entered, always, body, always, always]
  cases run.body c.body u.entered <;> rfl

/-- **An ending that nothing catches comes out of whatever it is reached in.** -/
theorem Underway.ended {X : Escape} (underway : Underway m t w s) (ended : X.Ended (m t)) :
    X.Ended (w s) := by
  induction underway with
  | here => exact ended
  | first inner ih => exact ih.first
  | next ran inner ih => exact .next ran ih
  | called free bound inner ih =>
    rw [run_execute free bound]
    exact ih.always fun has => X.unwind _ (X.counted _ has)
  | guarded inner ih => exact ih.guarded
  | handling failed caught inner ih => exact .handling failed caught ih

/-- A fault that cannot be caught comes out as it is, and all that happens on the way is that frames
are dropped and calls counted out. -/
theorem Underway.comes_out (underway : Underway m t w s) (raised : m t = .error (.fault f) t)
    (uncaught : f.isCatchable = false) :
    ∃ depth calls, w s = .error (.fault f) (t.dropped depth calls) := by
  have ended : (Escape.faults fun g x => g = f ∧ x = t).Ended (m t) :=
    Escape.ended_of_failed ⟨rfl, rfl⟩ uncaught raised
  obtain ⟨g, x, depth, calls, ⟨rfl, rfl⟩, out⟩ := Escape.failed_of_ended (underway.ended ended)
  exact ⟨depth, calls, out⟩

/-- A run at top level is terminated by a fault of that class and by nothing else. -/
theorem outcome_terminated {body : HostM Handle} :
    (∃ x, outcome body s = .ok .terminated x) ↔ ∃ f x, body s = .error (.fault f) x ∧
      f.kind = .terminate := by
  constructor
  · rintro ⟨x, ended⟩
    cases runEnds ended with
    | terminated failed kind => exact ⟨_, _, failed, kind⟩
  · rintro ⟨f, x, failed, kind⟩
    exact ⟨x.unwind s.env.stack.depth, by simp only [outcome, failed, kind, if_true]⟩

/-- The result of a step, where it has one. -/
def result? (m : HostM α) (s : Host) : Option α :=
  match m s with
  | .ok a _ => some a
  | .error _ _ => none

theorem run_of_result? {a : α} (ends : result? m s = some a) : m s = .ok a (endState m s) := by
  unfold endState
  cases run : m s with
  | ok b t =>
    simp only [result?, run, Option.some.injEq] at ends
    rw [ends]
  | error e t => simp [result?, run] at ends

/-! ## Nestings -/

namespace Underway

variable {run : Runner} {watch : Act → HostM Unit} {levels : Nat} {v p : Handle}
  {args vs : List Handle} {c : Callable}

/-- The body of a value that is called. -/
theorem callValue {x : Host} (found : onHeap (HeapM.callable v args.length) s = .ok c u)
    (free : u.interrupted = false) (bound : bindParams c args u = .ok vs x)
    (inner : Underway m t (run.body c.body) x.entered) :
    Underway m t (HostM.callValue run v args) s :=
  .next found (.called free bound inner)

/-- The last expression of a script. -/
theorem script {e : Expr} (inner : Underway m t (e.eval (.watched watch levels)) s) :
    Underway m t ((Runner.watched watch (levels + 1)).body (.script [e])) s := by
  change Underway m t (Expr.evalBody (.watched watch levels) [e]) s
  rw [Expr.evalBody]
  exact .first inner

/-- What is done to sort the elements of an array. -/
theorem sort {array : Handle} (list : param "A" s = .ok array s)
    (order : param "compareF" s = .ok p s) (items : onHeap (HeapM.elements array) s = .ok vs s)
    (inner : Underway m t (mergeSort (holds run p) vs) s) :
    Underway m t (Routine.perform run .sort) s :=
  .next list (.next order (.first (.next items (.first inner))))

/-- What the first comparison of two sorted lists calls. -/
theorem merge {a b : Handle} {as bs : List Handle}
    (inner : Underway m t (HostM.callValue run p [b, a]) s) :
    Underway m t (ScriptHost.merge (holds run p) (a :: as) (b :: bs)) s :=
  .first (.first inner)

/-- The merge of the halves, once these have been sorted. -/
theorem mergeSortTo {before : Before} {n : Nat} {ls rs : List Handle} {x : Host}
    (several : 1 < vs.length)
    (left : ScriptHost.mergeSortTo before n (vs.take (vs.length / 2)) s = .ok ls u)
    (right : ScriptHost.mergeSortTo before n (vs.drop (vs.length / 2)) u = .ok rs x)
    (inner : Underway m t (ScriptHost.merge before ls rs) x) :
    Underway m t (ScriptHost.mergeSortTo before (n + 1) vs) s := by
  rw [ScriptHost.mergeSortTo, if_neg (by omega)]
  exact .next left (.next right inner)

/-- What the newest handler for a class calls. -/
theorem handler {kind : FaultKind} {location message : String} {report : Handle} {x : Host}
    (stored : s.handlersFor kind = v :: vs)
    (made : onHeap (errorReport location message) s = .ok report u)
    (taken : handlerArgs report v u = .ok args x)
    (inner : Underway m t (HostM.callValue run v args) x) :
    Underway m t (invokeHandlers run kind location message) s := by
  have looked : look (·.handlersFor kind) s = .ok (v :: vs) s := by rw [look, stored]
  exact .next looked (.next made (.next taken (.first inner)))

end Underway

end HostM

/-! ## Bodies that end in a termination -/

namespace Runner

/-- A body ends in a termination. -/
def Terminated (run : Runner) (b : Body) (t : Host) (f : Fault) (u : Host) : Prop :=
  run.body b t = .error (.fault f) u ∧ f.kind = .terminate

/-- A runner that does what another one does, but may do anything in place of the bodies that end in
a termination there. -/
structure Replaces (run' run : Runner) : Prop where
  watch : run'.watch = run.watch
  body : ∀ b t, run'.body b t = run.body b t ∨ ∃ f u, run.Terminated b t f u

/-- What becomes of a termination that is replaced: nothing would be different, or it comes out. -/
def Shows {α : Type} (run' run : Runner) (r' r : EStateM.Result Halt Host α) : Prop :=
  r' = r ∨ ∃ b t f u depth calls, run.Terminated b t f u ∧ run'.body b t ≠ run.body b t ∧
    r = .error (.fault f) (u.dropped depth calls)

/-- The terminations of bodies that are replaced. -/
def replaced (run' run : Runner) : Escape :=
  .faults fun f u => ∃ b t, run.Terminated b t f u ∧ run'.body b t ≠ run.body b t

variable {run run' : Runner}

/-- Bodies agree up to a termination that the other runner replaces. -/
theorem Replaces.agrees_body (replaces : Replaces run' run) (b : Body) :
    (replaced run' run).Agrees (run.body b) (run'.body b) := by
  intro t
  by_cases same : run'.body b t = run.body b t
  · exact .inr same.symm
  · obtain ⟨f, u, out, kind⟩ := (replaces.body b t).resolve_left same
    exact .inl (Escape.ended_of_failed ⟨b, t, ⟨out, kind⟩, same⟩ (Fault.not_isCatchable kind) out)

/-- So do the watches. -/
theorem Replaces.agrees_watch (replaces : Replaces run' run) (act : Act) :
    (replaced run' run).Agrees (run.watch act) (run'.watch act) := by
  rw [replaces.watch]
  exact .refl _

/-- Steps that agree up to these terminations end alike, or the termination comes out. -/
theorem shows_of_agrees {α : Type} {m m' : HostM α} (agrees : (replaced run' run).Agrees m m')
    (s : Host) : Shows run' run (m' s) (m s) := by
  obtain ended | same := agrees s
  · obtain ⟨f, u, depth, calls, ⟨b, t, terminated, differs⟩, out⟩ := Escape.failed_of_ended ended
    exact .inr ⟨b, t, f, u, depth, calls, terminated, differs, out⟩
  · exact .inl same.symm

end Runner

namespace Host

open HostM

/-- **Nobody catches a termination.** A reachable host has no handlers for it, nor for the classes
that name no failure, and all its handlers are executables, whatever has been done to them since. A
termination that is raised underway in a computation comes out of it as it is, in the state of the
raise with frames dropped and calls counted out. Where it matters to an expression or a routine what
is done by bodies that end in a termination, one of these terminations comes out. And a run at top
level answers that it was terminated exactly if a termination comes out of its body. -/
theorem termination_uncaught :
    (∀ s : Host, s.Reachable → s.handlersFor .null = [] ∧ s.handlersFor .ok = [] ∧
      s.handlersFor .terminate = [] ∧ ∀ kind, ∀ v ∈ s.handlersFor kind,
      s.heap.kind v = .executable) ∧
    (∀ {α β : Type} {m : HostM α} {w : HostM β} {s t : Host} {f : Fault}, Terminates m t f →
      Underway m t w s → f.kind = .terminate ∧
      ∃ depth calls, w s = .error (.fault f) (t.dropped depth calls)) ∧
    (∀ {run run' : Runner}, Runner.Replaces run' run →
      (∀ e : Expr, ¬ e.Catches → ∀ s, Runner.Shows run' run (e.eval run' s) (e.eval run s)) ∧
      ∀ (r : Routine) (s : Host), Runner.Shows run' run (r.perform run' s) (r.perform run s)) ∧
    ∀ (body : HostM Handle) (s : Host), (∃ x, outcome body s = .ok .terminated x) ↔
      ∃ f x, body s = .error (.fault f) x ∧ f.kind = .terminate := by
  refine ⟨fun s reachable => ?_, fun terminates underway => ?_,
    fun replaces => ⟨fun e clear s => ?_, fun r s => ?_⟩, fun body s => outcome_terminated⟩
  · have held := reachable.attended
    refine ⟨?_, ?_, ?_, fun kind v mem => held.executable_of_mem mem⟩
    all_goals exact held.handlersFor_eq_nil (by simp [FaultKind.IsHandled])
  · obtain ⟨raised, kind⟩ := terminates.raised
    exact ⟨kind, underway.comes_out raised (Fault.not_isCatchable kind)⟩
  · exact Runner.shows_of_agrees (Escape.agrees_eval ⟨replaces.agrees_body, replaces.agrees_watch⟩ e
      (absurd · clear)) s
  · exact Runner.shows_of_agrees
      (Escape.agrees_perform replaces.agrees_body replaces.agrees_watch r) s

/-- The order sets the interrupt flag and fails. -/
def unordered : List Expr := [.guard "inner" [.sequence [.command .interrupt, .raise .valueLocked]]]

/-- A host with two elements to sort by that order, and with a handler for its fault. -/
def unsorted : Host := Session.after (.bare .default)
  [.bind (.plainSymbol .host "A") (.array 1 [.literal (.integer 2), .literal (.integer 1)] .refuse),
    .bind (.plainSymbol .host "compareF")
      (.function "order" [⟨"a", .reference⟩, ⟨"b", .reference⟩] unordered),
    .bind (.handler .valueLocked) (.function "handler" [] [.literal (.boolean true)])]

/-- The order is called, its statement fails, the report of that is offered to the handler, and the
call of the handler finds the interrupt flag set. -/
theorem unsorted_compares :
    ∃ handler t, t.interrupted = true ∧
    Underway (execute (.free 8) handler []) t (HostM.callValue (.free 9) ⟨3⟩ [⟨1⟩, ⟨0⟩])
      unsorted := by
  let order : Callable := ⟨0, "order", [⟨"a", .reference⟩, ⟨"b", .reference⟩], .script unordered⟩
  let entered := (endState (bindParams order [⟨1⟩, ⟨0⟩]) unsorted).entered
  let failed := { entered with interrupted := true }.unwind entered.env.stack.depth
  let reported := endState (onHeap (errorReport "inner" Fault.valueLocked.message)) failed
  let offered := endState (handlerArgs ⟨7⟩ ⟨4⟩) reported
  have found : onHeap (HeapM.callable ⟨3⟩ 2) unsorted = .ok order unsorted := by rfl
  have bound : bindParams order [⟨1⟩, ⟨0⟩] unsorted =
      .ok [⟨1⟩, ⟨0⟩] (endState (bindParams order [⟨1⟩, ⟨0⟩]) unsorted) :=
    run_of_result? (by decide +kernel)
  have fails :
      Expr.evalBody (.free 8) [.sequence [.command .interrupt, .raise .valueLocked]] entered =
      .error (.fault .valueLocked) { entered with interrupted := true } := rfl
  have made : onHeap (errorReport "inner" Fault.valueLocked.message) failed = .ok ⟨7⟩ reported :=
    run_of_result? (by decide +kernel)
  have stored : failed.handlersFor .valueLocked = [⟨4⟩] := by decide +kernel
  have taken : handlerArgs ⟨7⟩ ⟨4⟩ reported = .ok [] offered := run_of_result? (by decide +kernel)
  obtain ⟨handler, called⟩ := Option.isSome_iff_exists.mp
    (by decide +kernel : (result? (onHeap (HeapM.callable ⟨4⟩ 0)) offered).isSome = true)
  refine ⟨handler, endState (onHeap (HeapM.callable ⟨4⟩ 0)) offered, by decide +kernel, ?_⟩
  refine .callValue found (by decide +kernel) bound (.script ?_)
  rw [Expr.eval]
  exact .first
    (.handling fails rfl (.handler stored made taken (.next (run_of_result? called) .here)))

/-- A host whose handler for a fault raises a termination. -/
def deterred : Host := Session.after (.bare .default)
  [.bind (.handler .valueLocked) (.function "handler" [] [.raise .terminated])]

/-- Gives up in place of a script that only raises a termination. -/
def sparing (run : Runner) : Runner where
  watch := run.watch
  body
    | .script [.raise f] =>
      if f.kind = .terminate then throw .exhausted else run.body (.script [.raise f])
    | b => run.body b

/-- It replaces nothing but bodies that end in a termination. -/
theorem replaces_sparing (levels : Nat) :
    Runner.Replaces (sparing (.free (levels + 1))) (.free (levels + 1)) := by
  refine ⟨rfl, fun b t => ?_⟩
  simp only [sparing]
  split
  next f =>
    by_cases kind : f.kind = .terminate
    · refine .inr ⟨f, t, ?_, kind⟩
      change Expr.evalBody _ [.raise f] t = _
      rw [Expr.evalBody, Expr.eval]
      rfl
    · exact .inl (by simp only [kind, if_false])
  · exact .inl rfl

/-- A sort under guard is interrupted at the handler for a fault of the order, and the interruption
comes out of it all. And where a handler raises a termination, that comes out of the guard: to give
up instead would make a difference. -/
theorem termination_uncaught_nested :
    unsorted.handlersFor .terminate = [] ∧ unsorted.handlersFor .valueLocked = [⟨4⟩] ∧
      (∃ x, outcome (guard (.free 9) "outer" (Routine.perform (.free 9) .sort)) unsorted =
        .ok .terminated x) ∧
      ∃ f x, (Expr.guard "outer" [.raise .valueLocked]).eval (.free 9) deterred =
        .error (.fault f) x ∧ f.kind = .terminate := by
  have reachable : unsorted.Reachable := Host.reachable_after ⟨.default, true, [], none⟩ _
  have list : param "A" unsorted = .ok ⟨2⟩ unsorted := by rfl
  have predicate : param "compareF" unsorted = .ok ⟨3⟩ unsorted := by rfl
  have items : onHeap (HeapM.elements ⟨2⟩) unsorted = .ok [⟨0⟩, ⟨1⟩] unsorted := by rfl
  obtain ⟨handler, t, interrupted, compares⟩ := unsorted_compares
  have sorts : Underway _ t (mergeSort (holds (.free 9) ⟨3⟩) [⟨0⟩, ⟨1⟩]) unsorted :=
    .mergeSortTo (n := 1) (by decide) rfl rfl (.merge compares)
  have underway :
      Underway _ t (guard (.free 9) "outer" (Routine.perform (.free 9) .sort)) unsorted :=
    .guarded (.sort list predicate items sorts)
  obtain ⟨none, comesOut, shows, answers⟩ := termination_uncaught
  obtain ⟨kind, depth, calls, out⟩ :=
    comesOut (.interrupt (.free 8) handler [] interrupted) underway
  refine ⟨(none unsorted reachable).2.2.1, by decide +kernel,
    (answers _ unsorted).mpr ⟨_, _, out, kind⟩, ?_⟩
  let statement : Expr := .guard "outer" [.raise .valueLocked]
  have gaveUp : GaveUp (statement.eval (sparing (.free 9)) deterred) := by decide +kernel
  have ends : ¬ GaveUp (statement.eval (.free 9) deterred) := by decide +kernel
  have clear : ¬ statement.Catches := by simp [statement, Expr.Catches, Expr.AnyCatches]
  obtain same | ⟨b, t, f, u, depth, calls, terminated, _, out⟩ :=
    (shows (replaces_sparing 8)).1 statement clear deterred
  · exact absurd (same ▸ gaveUp) ends
  · exact ⟨f, _, out, terminated.2⟩

end Host

end ScriptHost
