import ScriptHost.Proofs.Host.Escape

/-!
# Giving up early

`Approx m' m`: the step `m'` gives up (`Halt.exhausted`), or does exactly what `m` does. Nothing
catches giving up, neither a guard nor an attempt, so an evaluation under one runner approximates
the evaluation under another one when the bodies and the watch do (`approx_eval`). So a watch that
gives up before certain acts tells whether they are reached, and changes nothing as long as they are
not (`approx_runBody`); nor do more levels than have been enough (`approx_levels`).
-/

set_option autoImplicit false

namespace ScriptHost

open HostM

/-- A step ended by giving up. -/
def GaveUp {α : Type} (r : EStateM.Result Halt Host α) : Prop := ∃ t, r = .error .exhausted t

instance {α : Type} (r : EStateM.Result Halt Host α) : Decidable (GaveUp r) :=
  match r with
  | .ok _ _ => isFalse nofun
  | .error (.fault _) _ => isFalse nofun
  | .error .exhausted t => isTrue ⟨t, rfl⟩

/-- A step that gives up or does what another one does. -/
def Approx {α : Type} (m' m : HostM α) : Prop := ∀ s, GaveUp (m' s) ∨ m' s = m s

namespace Escape

/-- To give up, in whatever state. -/
def exhaustion : Escape where
  Has e _ := e = .exhausted
  uncaught has := nomatch has
  unwind _ has := has
  counted _ has := has

theorem exhaustion_faultless : exhaustion.Faultless := fun _ _ has => nomatch has

/-- To be out by exhaustion is to have given up. -/
theorem ended_exhaustion {α : Type} {r : EStateM.Result Halt Host α} :
    exhaustion.Ended r ↔ GaveUp r := by
  constructor
  · rintro ⟨e, t, out, rfl⟩
    exact ⟨t, out⟩
  · rintro ⟨t, out⟩
    exact ⟨.exhausted, t, out, rfl⟩

/-- To agree up to exhaustion is to approximate. -/
theorem agrees_exhaustion {α : Type} {m' m : HostM α} : exhaustion.Agrees m' m ↔ Approx m' m := by
  simp only [Agrees, Approx, ended_exhaustion]

end Escape

open Escape

section Runners

variable {run run' : Runner} (bodies : ∀ b, Approx (run'.body b) (run.body b))

include bodies

/-- A call is approximated if its bodies are. -/
theorem approx_call (name : String) (args : List Handle) :
    Approx (call run' name args) (call run name args) :=
  agrees_exhaustion.mp (agrees_call (fun b => agrees_exhaustion.mpr (bodies b)) name args)

theorem approx_callValue (callee : Handle) (args : List Handle) :
    Approx (callValue run' callee args) (callValue run callee args) :=
  agrees_exhaustion.mp (agrees_callValue (fun b => agrees_exhaustion.mpr (bodies b)) callee args)

variable (watches : ∀ act, Approx (run'.watch act) (run.watch act))

include watches

/-- **Expressions** are approximated if bodies and watches are. -/
theorem approx_eval (e : Expr) : Approx (e.eval run') (e.eval run) := by
  simp only [← agrees_exhaustion] at bodies watches ⊢
  exact agrees_eval ⟨bodies, watches⟩ e fun _ => exhaustion_faultless

/-- So are routines. -/
theorem approx_perform (r : Routine) : Approx (r.perform run') (r.perform run) := by
  simp only [← agrees_exhaustion] at bodies watches ⊢
  exact agrees_perform bodies watches r

theorem approx_evalBody (es : List Expr) :
    Approx (Expr.evalBody run' es) (Expr.evalBody run es) := by
  simp only [← agrees_exhaustion] at bodies watches ⊢
  exact agrees_evalBody ⟨bodies, watches⟩ es fun _ => exhaustion_faultless

end Runners

/-- A body with fewer levels, under a watch that gives up more often. -/
theorem approx_levels {watch' watch : Act → HostM Unit}
    (watches : ∀ act, Approx (watch' act) (watch act)) (levels more : Nat) (b : Body) :
    Approx (runBody watch' levels b) (runBody watch (levels + more) b) := by
  induction levels generalizing b with
  | zero => exact fun s => .inl ⟨s, rfl⟩
  | succ n ih =>
    rw [Nat.succ_add]
    cases b with
    | routine r => exact approx_perform ih watches r
    | script code => exact approx_evalBody ih watches code

/-- A body under a watch that gives up before some acts, with the levels that it has without the
watch. -/
theorem approx_runBody {watch : Act → HostM Unit} (watches : ∀ act, Approx (watch act) (return ()))
    (levels : Nat) (b : Body) :
    Approx (runBody watch levels b) (runBody (fun _ => return ()) levels b) :=
  approx_levels watches levels 0 b

end ScriptHost
