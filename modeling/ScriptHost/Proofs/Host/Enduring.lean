import ScriptHost.Proofs.Host.Tidy

/-!
# Executables and arrays last through evaluations

An evaluation does to a heap what its operations do. So what lasts through every operation lasts
through every evaluation, whatever the program and whatever its end: an executable stays one, and
the contents of an array are changed by additions, insertions, exchanges and replacements of all
elements, one after the other, and in no other way. An assignment is among the operations, so
executables need not keep their arities here.

The regime is that of tidy hosts, with the way that they go on kept in mind (`Host.enduring`).
-/

set_option autoImplicit false

namespace ScriptHost

open HostM Course Regime

namespace Host

/-- Tidy hosts in which executables and arrays last; programs use any values. -/
def enduring : Regime where
  course := tidying False
  uses _ _ := True

theorem enduring_assign {s : Host} {a b : Handle} (held : s.Tidy False) :
    (tidying False).Leads (onHeap (HeapM.assign a b)) s fun _ _ => True :=
  (tidy_overHeap (Heap.lasts_assign a b s.heap) held).weaken fun _ _ _ _ _ => trivial

/-- **What lasts, lasts through evaluations**, under every watch that only looks on. -/
theorem enduring_lawful {watch : Act → HostM Unit} (stops : Stops False watch) :
    enduring.Lawful watch := by
  have plain : ∀ {s : Host} {step : HostM Yield}, (tidying False).Leads step s (fun _ _ => True) →
      enduring.course.Leads step s fun y t => y.All (enduring.uses t) :=
    fun leads => leads.weaken fun y _ _ _ _ => by cases y <;> trivial
  have heapLaw : enduring.HeapLawful :=
    { lasts := fun _ _ => trivial
      heap := fun _ held _ => (tidy_onHeap _ held).weaken fun _ _ _ _ _ _ _ => trivial }
  -- only assignments need a course that is not strict; all else is lawful as it is for tidy hosts
  exact {
    heapLaw with
    found := fun _ _ => trivial
    overload := fun _ _ => trivial
    register := fun _ _ => trivial
    aside := tidy_aside
    hold := fun held _ => Leads.change (C := tidying False)
      ⟨held.bases, held.env, held.environments, held.tables⟩ ((tidying False).refl _) trivial
    pushHandler := fun held _ => tidy_unguarded.leads_pushHandler held
    popHandler := fun held => tidy_unguarded.leads_popHandler held
    command := fun c held => leads_act (stops _ _) held fun _ => plain (tidy_command c held)
    bind := fun place held _ => leads_act (stops _ _) held fun _ =>
      leads_effect (tidy_bindPlace place held)
    operate := fun op held _ _ => leads_act (stops _ _) held fun _ =>
      heapLaw.leads_binary op held trivial trivial (fun _ => enduring_assign held) fun _ _ =>
        tidy_onHeap _ held
    setElements :=
      fun held _ _ => leads_act (stops _ _) held fun _ => leads_effect (tidy_onHeap _ held)
    restore := fun _ _ _ _ held _ _ => tidy_onHeap _ held
    enter := fun held _ => tidy_bindParams held
    counted := fun held => ⟨⟨held.bases, held.env, held.environments, held.tables⟩, fun held gone =>
      ⟨⟨held.bases, held.env, held.environments, held.tables⟩, gone, fun _ _ => trivial⟩⟩
    unwind := fun _ held gone => ⟨held.unwind _, gone, fun _ _ => trivial⟩
    callStates := fun held _ => plain (tidy_callStates held)
    scopes := fun held _ => plain (tidy_scopeReports held) }

variable {P : Handle → Prop} {s t : Host}

/-- **One step** leaves executables and arrays what they are. -/
theorem Step.endures (step : Step P s t) (held : s.Tidy False) :
    t.Tidy False ∧ (Heap.lasting False).goes s.heap t.heap := by
  have still : (Heap.lasting False).goes s.heap s.heap := (Heap.lasting False).refl s.heap
  cases step with
  | evaluate e levels =>
    obtain ⟨after, gone⟩ := ((enduring_lawful stops_nothing).leads_watched e levels held).atEnd
    exact ⟨after, gone.1⟩
  | hold register v owned => exact ⟨⟨held.bases, held.env, held.environments, held.tables⟩, still⟩
  | enter c args owned =>
    obtain ⟨after, gone⟩ := (tidy_bindParams held).atEnd
    exact ⟨after, gone.1⟩
  | leave depth => exact ⟨held.unwind depth, still⟩
  | count calls => exact ⟨⟨held.bases, held.env, held.environments, held.tables⟩, still⟩
  | log reports => exact ⟨⟨held.bases, held.env, held.environments, held.tables⟩, still⟩

end Host

end ScriptHost
