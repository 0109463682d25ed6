import ScriptHost.Proofs.Heap.Levels
import ScriptHost.Proofs.Host.Behaviour
import ScriptHost.Proofs.Host.Run

/-!
# Keys, names and arities in reachable hosts

No program puts a key into a dictionary twice, nor a name into a structure, nor an arity into an
executable: every reachable heap is distinct (`Reachable.distinct`). So levels are no limit of an
assignment in it (`Reachable.assign_eq`).
-/

set_option autoImplicit false

namespace ScriptHost

open HostM Course

/-- The conduct of hosts with distinct contents. Nothing else counts, and every command is
permitted. -/
def Conduct.distinct : Conduct where
  contents := Data.Distinct
  permits _ := True
  counts _ := False
  course :=
    { holds := fun s => s.heap.All Data.Distinct
      goes := fun _ _ => True
      refl := fun _ => trivial
      trans := fun _ _ => trivial }
  tireless := False

/-- No command resets the stack of an environment if none counts. -/
theorem Command.not_resets {counts : EnvName → Prop} (none : ∀ env, ¬ counts env) (c : Command) :
    ¬ c.Resets counts := by
  intro resets
  cases c with
  | newEnv env _ | popFrame env | clearEnv env | cloneEnv _ env _ => exact none env resets
  | _ => exact resets

/-- **Contents stay distinct**, whatever the program. -/
theorem Conduct.distinct_lawful : distinct.Lawful distinct fun _ => return () where
  hereditary := Data.distinct_hereditary
  all held := held
  moves _ all _ := ⟨all, trivial⟩
  tireless tireless := tireless
  suits _ := Data.distinct_suits _
  runs _ c _ := c.body.only_of_every fun _ => trivial
  watched _ := .pure _
  command _ resets := absurd resets (Command.not_resets (fun _ => id) _)
  enter _ all _ _ := all
  leave _ _ _ held _ := ⟨held, trivial⟩
  unwind _ held _ := ⟨held, trivial⟩

namespace Host

variable {P : Handle → Prop} {s t : Host}

/-- **One step** keeps contents distinct. -/
theorem Step.distinct (step : Step P s t) (held : s.heap.All Data.Distinct) :
    t.heap.All Data.Distinct := by
  cases step with
  | evaluate e levels =>
    have only : e.Only Conduct.distinct.permits := e.only_of_every fun _ => trivial
    have abides := Conduct.distinct_lawful.abides_watched id levels only
    exact (abides.follows s held).1.atEnd.1
  | enter c args _ =>
    have bound := Conduct.Moving.follows_bindParams (fun _ => False) c args held
    exact bound.1.atEnd.1
  | hold _ _ _ | leave _ | count _ | log _ => exact held

/-- **A run** does. -/
theorem Run.distinct (run : Run P s t) (held : s.heap.All Data.Distinct) :
    t.heap.All Data.Distinct := by
  induction run with
  | refl => exact held
  | tail _ step ih => exact step.distinct ih

theorem session_distinct (session : Session) : session.host.heap.All Data.Distinct := by
  have bare : (bare session.settings).heap.All Data.Distinct := Heap.empty_all
  have install : (Conduct.moving Data.Distinct fun _ => False).Abides Library.install :=
    Conduct.Moving.install fun r => Data.distinct_suits _
  unfold Session.host
  split
  · exact bare
  · exact (install.follows _ bare).1.atEnd.1

/-- **The contents of every reachable heap are distinct.** -/
theorem Reachable.distinct (reachable : s.Reachable) : s.heap.All Data.Distinct := by
  obtain ⟨session, run⟩ := reachable
  exact run.distinct (session_distinct session)

/-- **No assignment is cut off**: it is one level of an assignment that leaves the parts to
assignments. -/
theorem Reachable.assign_eq (reachable : s.Reachable) (target source : Handle) :
    HeapM.assign target source s.heap = HeapM.assignOnce HeapM.assign target source s.heap :=
  reachable.wellFormed.assign_eq reachable.distinct target source

end Host

end ScriptHost
