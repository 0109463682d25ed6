import ScriptHost.Proofs.Course
import ScriptHost.Proofs.Host.Approximation

/-!
# Conduct

A `Conduct` is a course of hosts together with what the course is about: a property of all contents
of the heap, the commands that programs are made of, and the environments whose stacks count. Where
it is tireless, nothing is ever given up either. `K.Abides m` says that a step keeps to the conduct
from every host in which it holds. That is a property of the step alone, and it is found for a step
by the steps that it is made of.
-/

set_option autoImplicit false

namespace ScriptHost

open HostM Course

/-- What evaluations can keep to. -/
structure Conduct where
  /-- What all contents of the heap are like. -/
  contents : Data Handle → Prop
  /-- The commands that programs are made of. -/
  permits : Command → Prop
  /-- The environments whose stacks count. -/
  counts : EnvName → Prop
  course : Course Host
  /-- Nothing is given up. -/
  tireless : Prop

namespace Conduct

variable {K : Conduct} {α β : Type} {s t : Host} {Q : α → Host → Prop} {R : β → Host → Prop}

/-- From `s` on, the step `m` keeps to the course of the conduct, with a result that has `Q`, and
does not give up. -/
def Follows (K : Conduct) (m : HostM α) (s : Host) (Q : α → Host → Prop) : Prop :=
  K.course.Leads m s Q ∧ (K.tireless → ¬ GaveUp (m s))

namespace Follows

/-- From a run that is known to succeed. -/
theorem of_ok {m : HostM α} {a : α} (run : m s = .ok a t) (held : K.course.holds t)
    (gone : K.course.goes s t) (result : Q a t) : K.Follows m s Q := by
  refine ⟨.of_ok run held gone result, ?_⟩
  rintro - ⟨u, up⟩
  rw [run] at up
  cases up

/-- From a run that is known to fail. -/
theorem of_fault {m : HostM α} {f : Fault} (run : m s = .error (.fault f) t)
    (held : K.course.holds t) (gone : K.course.goes s t) : K.Follows m s Q := by
  refine ⟨.of_error run held gone, ?_⟩
  rintro - ⟨u, up⟩
  rw [run] at up
  cases up

/-- An ending that is known not to be given up. -/
theorem of_error {m : HostM α} {e : Halt} (run : m s = .error e t) (held : K.course.holds t)
    (gone : K.course.goes s t) (ends : K.tireless → e ≠ .exhausted) : K.Follows m s Q := by
  refine ⟨.of_error run held gone, fun tireless => ?_⟩
  rintro ⟨u, up⟩
  rw [run] at up
  cases up
  exact ends tireless rfl

/-- A failure keeps to the course, and is not giving up. -/
theorem error {m : HostM α} {e : Halt} (follows : K.Follows m s Q) (run : m s = .error e t) :
    K.course.holds t ∧ K.course.goes s t ∧ (K.tireless → e ≠ .exhausted) := by
  obtain ⟨held, gone⟩ := follows.1.error run
  refine ⟨held, gone, fun tireless given => follows.2 tireless ⟨t, ?_⟩⟩
  rw [run, given]

theorem pure {a : α} (held : K.course.holds s) (result : Q a s) :
    K.Follows (pure a : HostM α) s Q :=
  of_ok rfl held (K.course.refl s) result

theorem fail {f : Fault} (held : K.course.holds s) : K.Follows (HostM.fail f : HostM α) s Q :=
  of_fault rfl held (K.course.refl s)

/-- One step after the other: what follows starts where the first has led. -/
theorem bind {m : HostM α} {f : α → HostM β} (first : K.Follows m s Q)
    (next : ∀ a t, K.course.holds t → K.course.goes s t → Q a t → K.Follows (f a) t R) :
    K.Follows (m >>= f) s R := by
  cases run : m s with
  | ok a t =>
    obtain ⟨held, gone, result⟩ := first.1.ok run
    have rest := next a t held gone result
    have whole : (m >>= f) s = f a t := by simp only [Bind.bind, EStateM.bind, run]
    refine ⟨rest.1.continued whole gone, fun tireless => ?_⟩
    rw [whole]
    exact rest.2 tireless
  | error e t =>
    obtain ⟨held, gone, ends⟩ := first.error run
    have whole : (m >>= f) s = .error e t := by simp only [Bind.bind, EStateM.bind, run]
    exact of_error whole held gone ends

/-- A step that goes over into another one, which it ends as. -/
theorem continued {whole m : HostM α} (rest : K.Follows m t Q) (run : whole s = m t)
    (gone : K.course.goes s t) : K.Follows whole s Q := by
  refine ⟨rest.1.continued run gone, fun tireless => ?_⟩
  rw [run]
  exact rest.2 tireless

/-- What is said of a result may use that the course holds at the end. -/
theorem weaken {m : HostM α} {Q' : α → Host → Prop} (follows : K.Follows m s Q)
    (weaker : ∀ a t, K.course.holds t → K.course.goes s t → Q a t → Q' a t) : K.Follows m s Q' :=
  ⟨follows.1.weaken weaker, follows.2⟩

/-- What is known of a result by the run itself. -/
theorem also {m : HostM α} {Q' : α → Host → Prop} (follows : K.Follows m s Q)
    (also : ∀ a t, m s = .ok a t → Q' a t) : K.Follows m s Q' := by
  cases run : m s with
  | ok a t =>
    obtain ⟨held, gone, -⟩ := follows.1.ok run
    exact of_ok run held gone (also a t run)
  | error e t =>
    obtain ⟨held, gone, ends⟩ := follows.error run
    exact of_error run held gone ends

theorem lookBind {f : Host → α} {k : α → HostM β} (next : K.Follows (k (f s)) s R) :
    K.Follows (look f >>= k) s R := next

end Follows

/-- The step keeps to the conduct from every host in which it holds. -/
class Abides (K : Conduct) (m : HostM α) : Prop where
  follows : ∀ s, K.course.holds s → K.Follows m s fun _ _ => True

/-! ## Sequences of steps -/

namespace Abides

instance pure (a : α) : K.Abides (pure a : HostM α) := ⟨fun _ held => .pure held trivial⟩

instance fail (f : Fault) : K.Abides (HostM.fail f : HostM α) := ⟨fun _ held => .fail held⟩

instance bind (m : HostM α) (f : α → HostM β) [first : K.Abides m] [next : ∀ a, K.Abides (f a)] :
    K.Abides (m >>= f) :=
  ⟨fun s held => (first.follows s held).bind fun a t held _ _ => (next a).follows t held⟩

instance look (f : Host → α) : K.Abides (look f) :=
  ⟨fun s held => .of_ok rfl held (K.course.refl s) trivial⟩

instance of (x : Except Fault α) : K.Abides (of x) := by
  refine ⟨fun s held => ?_⟩
  cases x with
  | ok a => exact .pure held trivial
  | error f => exact .fail held

instance ite (c : Prop) [Decidable c] (m n : HostM α) [yes : K.Abides m] [no : K.Abides n] :
    K.Abides (if c then m else n) := by
  split
  · exact yes
  · exact no

/-- A step for each element of a list, if each of them abides. -/
theorem forM_mem {l : List α} {f : α → HostM PUnit} (each : ∀ a ∈ l, K.Abides (f a)) :
    K.Abides (l.forM f) := by
  induction l with
  | nil => exact pure _
  | cons a l ih =>
    have first := each a (by simp)
    have rest := ih fun b mem => each b (by simp [mem])
    change K.Abides (f a >>= fun _ => l.forM f)
    infer_instance

instance forM (l : List α) (f : α → HostM PUnit) [each : ∀ a, K.Abides (f a)] :
    K.Abides (l.forM f) := forM_mem fun a _ => each a

instance mapM (l : List α) (f : α → HostM β) [each : ∀ a, K.Abides (f a)] :
    K.Abides (l.mapM f) := by
  induction l with
  | nil => exact pure _
  | cons a l ih =>
    rw [List.mapM_cons]
    infer_instance

instance effect (step : HostM Unit) [K.Abides step] : K.Abides (effect step) := by
  unfold HostM.effect
  infer_instance

instance lookReport (f : Host → Report) : K.Abides (lookReport f) := by
  unfold HostM.lookReport
  infer_instance

instance table (name : String) : K.Abides (table name) := look _

instance param (name : String) : K.Abides (param name) := by
  unfold HostM.param
  infer_instance

instance imageOf (v : Handle) : K.Abides (imageOf v) := look _

instance frame (bindings : List (Symbol × Handle)) : K.Abides (frame bindings) := by
  unfold HostM.frame
  split <;> infer_instance

instance reported (step : HostM Yield) [K.Abides step] : K.Abides (reported step) := by
  unfold HostM.reported
  infer_instance

instance times (n : Nat) (step : HostM Yield) [each : K.Abides step] : K.Abides (times n step) := by
  induction n with
  | zero => exact pure _
  | succ n ih =>
    cases n with
    | zero => exact each
    | succ n => exact bind _ _

/-- A fault is caught; giving up is not, but there is none. -/
instance attempt (step : HostM Yield) [K.Abides step] : K.Abides (attempt step) := by
  refine ⟨fun s held => ?_⟩
  have report : K.Follows (HostM.reported step) s fun _ _ => True := Abides.follows s held
  cases ends : HostM.reported step s with
  | ok r t =>
    obtain ⟨held, gone, -⟩ := report.1.ok ends
    have whole : HostM.attempt step s = .ok (.report (.ok r)) t := by
      simp only [HostM.attempt, ends]
    exact .of_ok whole held gone trivial
  | error halt t =>
    obtain ⟨held, gone, up⟩ := report.error ends
    cases halt with
    | fault f =>
      have whole : HostM.attempt step s = .ok (.report (.fault f)) t := by
        simp only [HostM.attempt, ends]
      exact .of_ok whole held gone trivial
    | exhausted =>
      have whole : HostM.attempt step s = .error .exhausted t := by simp only [HostM.attempt, ends]
      exact .of_error whole held gone up

end Abides

end Conduct

end ScriptHost
