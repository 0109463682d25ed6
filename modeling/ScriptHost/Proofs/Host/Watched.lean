import ScriptHost.Proofs.Host.Approximation
import ScriptHost.Proofs.Host.Run

/-!
# Runs under a watch

Some properties of runs hold only as long as programs refrain from certain acts. A watch gives up
before the first of them, so an evaluation that ends in the same way with the watch as without it
has refrained from them (`Unstopped`). `Host.WatchedRun watch` is a run whose evaluations are all
like that; any run is one under the watch that lets everything pass.
-/

set_option autoImplicit false

namespace ScriptHost

open HostM

/-- An evaluation in which a watch stops nothing. -/
def Unstopped (watch : Act → HostM Unit) (e : Expr) (levels : Nat) (s : Host) : Prop :=
  e.eval (.watched watch levels) s = e.eval (.free levels) s

/-- A watch that only gives up has stopped nothing if the evaluation has not been given up. -/
theorem unstopped_of_not_gaveUp {watch : Act → HostM Unit} {e : Expr} {levels : Nat} {s : Host}
    (approx : ∀ act, Approx (watch act) (return ()))
    (ends : ¬ GaveUp (e.eval (.watched watch levels) s)) : Unstopped watch e levels s :=
  (approx_eval (approx_runBody approx levels) approx e s).resolve_left ends

/-- Gives up before an act that fails a condition. -/
def stopUnless (passes : Act → Host → Prop) [∀ act s, Decidable (passes act s)] (act : Act) :
    HostM Unit := fun s =>
  if passes act s then .ok () s else .error .exhausted s

section StopUnless

variable {passes : Act → Host → Prop} [∀ act s, Decidable (passes act s)] {act : Act} {s : Host}

theorem stopUnless_of_passes (pass : passes act s) : stopUnless passes act s = .ok () s := by
  simp only [stopUnless, pass, if_true]

theorem stopUnless_of_not_passes (fails : ¬ passes act s) :
    stopUnless passes act s = .error .exhausted s := by
  simp only [stopUnless, fails, if_false]

theorem approx_stopUnless (act : Act) : Approx (stopUnless passes act) (return ()) := by
  intro s
  by_cases pass : passes act s
  · exact .inr (stopUnless_of_passes pass)
  · exact .inl ⟨s, stopUnless_of_not_passes pass⟩

end StopUnless

namespace Host

/-- What can happen to a host while a watch stops nothing. -/
inductive WatchedStep (watch : Act → HostM Unit) (s : Host) : Host → Prop where
  | evaluate (e : Expr) (levels : Nat) (unstopped : Unstopped watch e levels s) :
    WatchedStep watch s (endState (e.eval (.free levels)) s)
  | hold (register : String) (v : Handle) (made : s.heap.Made v) :
    WatchedStep watch s { s with registers := Named.put register v s.registers }
  | enter (c : Callable) (args : List Handle) (made : ∀ v ∈ args, s.heap.Made v) :
    WatchedStep watch s (endState (bindParams c args) s)
  | leave (depth : Nat) : WatchedStep watch s (s.unwind depth)
  | count (calls : Nat) : WatchedStep watch s { s with callDepth := calls }
  | log (reports : List Report) : WatchedStep watch s { s with log := reports }

/-- Any number of steps in which a watch stops nothing. -/
abbrev WatchedRun (watch : Act → HostM Unit) : Host → Host → Prop :=
  Relation.ReflTransGen (WatchedStep watch)

variable {watch : Act → HostM Unit} {P : Handle → Prop} {s t : Host}

/-- A watch that lets everything pass stops nothing. -/
theorem Step.watched (step : Step P s t) : WatchedStep (fun _ => return ()) s t := by
  cases step with
  | evaluate e levels => exact .evaluate e levels rfl
  | hold register v owned => exact .hold register v owned.1
  | enter c args owned => exact .enter c args fun v mem => (owned v mem).1
  | leave depth => exact .leave depth
  | count calls => exact .count calls
  | log reports => exact .log reports

theorem Run.watched (run : Run P s t) : WatchedRun (fun _ => return ()) s t :=
  run.lift id fun _ _ step => Step.watched step

/-- What happens under a watch can happen. -/
theorem WatchedStep.step (step : WatchedStep watch s t) : Step (fun _ => True) s t := by
  cases step with
  | evaluate e levels _ => exact .evaluate e levels
  | hold register v made => exact .hold register v ⟨made, trivial⟩
  | enter c args made => exact .enter c args fun v mem => ⟨made v mem, trivial⟩
  | leave depth => exact .leave depth
  | count calls => exact .count calls
  | log reports => exact .log reports

theorem WatchedRun.run (run : WatchedRun watch s t) : Run (fun _ => True) s t :=
  run.lift id fun _ _ step => WatchedStep.step step

/-- An evaluation in which nothing is stopped ends in the state that it leaves under the watch. -/
theorem endState_unstopped {e : Expr} {levels : Nat} (unstopped : Unstopped watch e levels s) :
    endState (e.eval (.watched watch levels)) s = endState (e.eval (.free levels)) s := by
  rw [Unstopped] at unstopped
  rw [endState, endState, unstopped]

end Host

end ScriptHost
