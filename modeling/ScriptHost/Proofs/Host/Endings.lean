import ScriptHost.Host.Call

/-!
# How guards and runs at top level end

A guard lets through what its statement yields. A fault that can be caught is offered to the
handlers, in the frames that the guard was entered with, and their answer decides; any other fault
passes, in the same frames. A run at top level makes an outcome of every fault. Neither catches that
a step is given up.

`GuardEnds` and `RunEnds` have one case for each of these endings, with what it takes to come to it,
so that what is said about guards and runs is proved by these cases.
-/

set_option autoImplicit false

namespace ScriptHost.HostM

/-- How a guard ends that is entered in `s`. -/
inductive GuardEnds (run : Runner) (location : String) (statement : HostM Handle) (s : Host) :
    EStateM.Result Halt Host Handle → Prop where
  | yields {v : Handle} {t : Host} (ends : statement s = .ok v t) :
    GuardEnds run location statement s (.ok v t)
  | exhausted {t : Host} (ends : statement s = .error .exhausted t) :
    GuardEnds run location statement s (.error .exhausted t)
  | passes {f : Fault} {t : Host} (ends : statement s = .error (.fault f) t)
    (uncaught : f.isCatchable = false) :
    GuardEnds run location statement s (.error (.fault f) (t.unwind s.env.stack.depth))
  | accepted {f : Fault} {t u : Host} (ends : statement s = .error (.fault f) t)
    (caught : f.isCatchable = true)
    (answer : invokeHandlers run f.kind location f.message (t.unwind s.env.stack.depth) =
      .ok true u) :
    GuardEnds run location statement s (onHeap HeapM.newNull u)
  | declined {f : Fault} {t u : Host} (ends : statement s = .error (.fault f) t)
    (caught : f.isCatchable = true)
    (answer : invokeHandlers run f.kind location f.message (t.unwind s.env.stack.depth) =
      .ok false u) :
    GuardEnds run location statement s (.error (.fault f) u)
  | fails {f : Fault} {t u : Host} {e : Halt} (ends : statement s = .error (.fault f) t)
    (caught : f.isCatchable = true)
    (answer : invokeHandlers run f.kind location f.message (t.unwind s.env.stack.depth) =
      .error e u) :
    GuardEnds run location statement s (.error e u)

/-- How a body that is run at top level ends. -/
inductive RunEnds (body : HostM Handle) (s : Host) : EStateM.Result Halt Host Outcome → Prop where
  | completed {v : Handle} {t : Host} (ends : body s = .ok v t) :
    RunEnds body s (.ok (.completed v) (t.unwind s.env.stack.depth))
  | exhausted {t : Host} (ends : body s = .error .exhausted t) :
    RunEnds body s (.error .exhausted t)
  | terminated {f : Fault} {t : Host} (ends : body s = .error (.fault f) t)
    (kind : f.kind = .terminate) : RunEnds body s (.ok .terminated (t.unwind s.env.stack.depth))
  | aborted {f : Fault} {t : Host} (ends : body s = .error (.fault f) t)
    (other : f.kind ≠ .terminate) : RunEnds body s (.ok (.aborted f) (t.unwind s.env.stack.depth))

variable {run : Runner} {location : String} {statement body : HostM Handle} {s : Host}

theorem guardEnds {r : EStateM.Result Halt Host Handle}
    (whole : HostM.guard run location statement s = r) : GuardEnds run location statement s r := by
  subst whole
  unfold HostM.guard
  dsimp only
  split
  next ends => exact .yields ends
  next ends => exact .exhausted ends
  next ends =>
    split
    next caught =>
      split
      next answer => exact .accepted ends caught answer
      next answer => exact .declined ends caught answer
      next answer => exact .fails ends caught answer
    next uncaught => exact .passes ends (by simpa using uncaught)

theorem runEnds {r : EStateM.Result Halt Host Outcome} (whole : outcome body s = r) :
    RunEnds body s r := by
  subst whole
  unfold outcome
  dsimp only
  split
  next ends => exact .completed ends
  next ends => exact .exhausted ends
  next ends =>
    split
    next kind => exact .terminated ends kind
    next other => exact .aborted ends other

end ScriptHost.HostM
