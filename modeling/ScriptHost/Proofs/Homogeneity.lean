import ScriptHost.Proofs.Host.Approximation
import ScriptHost.Proofs.Host.Run

/-!
# Arrays of one kind

An array that was declared with an element type is to hold elements of the kind of that type. An
element that is added is checked for it. One that is inserted at a place is not, nor are elements
that take the place of all others; they can be of any kind (`Host.arrays_mixed`).

There is no other way for an array to come to hold an element of another kind:
`Host.arrays_homogeneous`. In a run in which no such `Placement` succeeds with a misfit, all arrays
are homogeneous at every moment, whatever else is done to them; and a placement that succeeds leaves
them so exactly if the array admits what is placed.
-/

set_option autoImplicit false

namespace ScriptHost

open HostM Course

/-! ## Placements -/

namespace Heap

variable {h h' : Heap} {target v : Handle} {items : List Handle}

/-- What has happened once elements have been placed in an array: it holds them, and they do not
lead to it. -/
def Placed (target : Handle) (items : List Handle) (h h' : Heap) : Prop :=
  ∃ a b, h.data target = .array a ∧ (Data.array a).Keeps (.array b) ∧
    h' = h.setCell target ⟨.array b, false⟩ ∧ ∀ v ∈ items, v ∈ b.items ∧ ¬ h.Reaches v target

/-- The contents of an unlocked array, made anew, are what is put into it. -/
theorem placed_of_store {a : Sequence Handle} {x : Except Fault (Sequence Handle)}
    (unlocked : h.isLocked target = false) (held : h.data target = .array a)
    (run : (do HeapM.write target (.array (← HeapM.of x))) h = .ok () h')
    (away : ∀ v ∈ items, ¬ h.Reaches v target)
    (keeps : ∀ b, x = .ok b → (Data.array a).Keeps (.array b) ∧ ∀ v ∈ items, v ∈ b.items) :
    Placed target items h h' := by
  cases made : x with
  | error f =>
    subst made
    cases run
  | ok b =>
    rw [HeapM.store_of_ok made unlocked] at run
    cases run
    exact ⟨a, b, held, (keeps b made).1, rfl, fun v mem => ⟨(keeps b made).2 v mem, away v mem⟩⟩

theorem placed_of_insertAt {position : Integer}
    (run : HeapM.insertAt target v position h = .ok () h') : Placed target [v] h h' := by
  by_cases reach : h.Reaches v target
  · have refused : HeapM.insertAt target v position h = .error .containsItself h :=
      HeapM.bind_of_error (HeapM.rejectCycle_of_reaches reach) _
    rw [refused] at run
    cases run
  · have searched := HeapM.rejectCycle_of_not_reaches reach
    obtain ⟨unlocked, run⟩ := HeapM.ok_of_writable ((HeapM.bind_of_ok searched _).symm.trans run)
    cases held : h.data target with
    | array a =>
      rw [held] at run
      refine placed_of_store unlocked held run (by simpa using reach) fun b inserted => ?_
      exact ⟨(Sequence.insert_keeps inserted).1, by simpa using Sequence.mem_of_insert inserted⟩
    | leaf _ | dictionary _ | record _ =>
      rw [held] at run
      cases run

theorem placed_of_setElements (run : HeapM.setElements target items h = .ok () h') :
    Placed target items h h' := by
  obtain ⟨away, searched⟩ | ⟨-, refused⟩ := HeapM.rejectCycles_cases h target items
  · obtain ⟨unlocked, run⟩ := HeapM.ok_of_writable ((HeapM.bind_of_ok searched _).symm.trans run)
    cases held : h.data target with
    | array a =>
      rw [held] at run
      refine placed_of_store unlocked held run away fun b replaced => ?_
      obtain ⟨keeps, rfl⟩ := Sequence.replace_keeps replaced
      exact ⟨keeps, fun v mem => mem⟩
    | leaf _ | dictionary _ | record _ =>
      rw [held] at run
      cases run
  · have ends : HeapM.setElements target items h = .error .containsItself h :=
      HeapM.bind_of_error refused _
    rw [ends] at run
    cases run

/-- Elements that fit where they have been placed were admitted there. -/
theorem Placed.admits (placed : Placed target items h h') (homogeneous : h'.Homogeneous) :
    ∀ v ∈ items, h.Admits target v := by
  obtain ⟨a, b, held, keeps, rfl, there⟩ := placed
  have contents : (h.setCell target ⟨.array b, false⟩).data target = .array b := data_stored held
  intro v mem
  obtain ⟨inside, away⟩ := there v mem
  have other : v ≠ target := fun same => away (same ▸ .refl v)
  have admitted := homogeneous target v (by simpa only [contents, Data.parts] using inside)
  rw [contents, Data.Admits, keeps.elementKind?, Heap.kind,
    data_congr (cell_setCell_ne h _ other)] at admitted
  rw [Heap.Admits, held]
  exact admitted

end Heap

namespace Act

variable {h h' : Heap} {act : Act} {p : Placement}

/-- **A placement keeps a heap homogeneous exactly if the array admits what is placed.** -/
theorem homogeneous_iff (region : h.Region fun _ => True) (homogeneous : h.Homogeneous)
    (places : act.placement? = some p) (made : ∀ v ∈ p.items, h.Made v)
    (run : p.step h = .ok () h') : h'.Homogeneous ↔ ∀ v ∈ p.items, h.Admits p.array v := by
  have realm : h.Realm True fun _ => True := { region with homogeneous := fun _ => homogeneous }
  have taken : ∀ v ∈ p.items, h.Owned (fun _ => True) v := fun v mem => ⟨made v mem, trivial⟩
  have owned : ∀ {items : List Handle}, Heap.Placed p.array items h h' →
      h.Owned (fun _ => True) p.array := by
    rintro _ ⟨a, _, held, _⟩
    exact ⟨Heap.made_of_array held, trivial⟩
  cases act with
  | operate op array v =>
    cases op with
    | insertAt position =>
      cases places
      have placed := Heap.placed_of_insertAt run
      refine ⟨placed.admits, fun admitted => ?_⟩
      have leads : (Heap.course True fun _ => True).Leads (HeapM.insertAt array v position) h
          fun _ _ => True :=
        Heap.leads_insertAt realm (owned placed) (taken v (by simp)) fun _ _ => admitted v (by simp)
      exact (leads.ok run).1.homogeneous trivial
    | _ => cases places
  | setElements array items =>
    cases places
    have placed := Heap.placed_of_setElements run
    refine ⟨placed.admits, fun admitted => ?_⟩
    have leads := Heap.leads_setElements realm (owned placed) taken fun _ _ => admitted
    exact (leads.ok run).1.homogeneous trivial
  | command _ | bind _ => cases places

end Act

/-! ## Runs without misfits -/

namespace Host

/-- Gives up before an act that places an element of another kind. -/
def stopMisfits (act : Act) : HostM Unit :=
  fun s => if act.Fits s.heap then .ok () s else .error .exhausted s

theorem stops_misfits : Stops True stopMisfits := by
  intro act s
  by_cases fits : act.Fits s.heap
  · exact .inl ⟨by simp only [stopMisfits, fits, if_true], fun _ => fits⟩
  · exact .inr ⟨.exhausted, by simp only [stopMisfits, fits, if_false]⟩

theorem approx_stopMisfits (act : Act) : Approx (stopMisfits act) (return ()) := by
  intro s
  by_cases fits : act.Fits s.heap
  · exact .inr (by simp only [stopMisfits, fits, if_true]; rfl)
  · exact .inl ⟨s, by simp only [stopMisfits, fits, if_false]⟩

/-- An evaluation in which no element of another kind is placed: to give up before the first one
makes no difference. -/
def Fitting (e : Expr) (levels : Nat) (s : Host) : Prop :=
  e.eval (.watched stopMisfits levels) s = e.eval (.free levels) s

theorem fitting_of_not_gaveUp {e : Expr} {levels : Nat} {s : Host}
    (ends : ¬ GaveUp (e.eval (.watched stopMisfits levels) s)) : Fitting e levels s :=
  (approx_eval (approx_runBody approx_stopMisfits levels) approx_stopMisfits e s).resolve_left ends

/-- What can happen to a host without a misfit: an expression is evaluated, a call is entered, or
anything is done that leaves the heap alone. -/
inductive FittingStep (s : Host) : Host → Prop where
  | evaluate (e : Expr) (levels : Nat) (fitting : Fitting e levels s) :
    FittingStep s (endState (e.eval (.free levels)) s)
  | enter (c : Callable) (args : List Handle) (made : ∀ v ∈ args, s.heap.Made v) :
    FittingStep s (endState (bindParams c args) s)
  | aside (t : Host) (step : Step (fun _ => True) s t) (same : t.heap = s.heap) : FittingStep s t

/-- Any number of steps without a misfit. -/
abbrev FittingRun : Host → Host → Prop := Relation.ReflTransGen FittingStep

variable {s t : Host}

/-- **One step** without a misfit keeps the heap homogeneous. -/
theorem FittingStep.owning (step : FittingStep s t) (held : s.Owning True fun _ => True) :
    t.Owning True fun _ => True := by
  cases step with
  | evaluate e levels fitting =>
    have leads := (owning_lawful stops_misfits fun _ => True).leads_watched e levels held
    have same : endState (e.eval (.watched stopMisfits levels)) s =
        endState (e.eval (.free levels)) s := by
      rw [Fitting] at fitting
      simp only [endState, fitting]
    rw [← same]
    exact leads.atEnd.1
  | enter c args made => exact (leads_bindParams held fun v mem => ⟨made v mem, trivial⟩).atEnd.1
  | aside t step same =>
    obtain ⟨after, -⟩ := step.owning ⟨held.region.realm, held.within⟩
    exact ⟨same ▸ held.realm, after.within⟩

/-- **A run** without a misfit keeps the heap homogeneous. -/
theorem FittingRun.owning (run : FittingRun s t) (held : s.Owning True fun _ => True) :
    t.Owning True fun _ => True := by
  induction run with
  | refl => exact held
  | tail _ step ih => exact step.owning ih

/-- **Arrays of one kind.** In every state that a session gets into without placing a misfit, the
elements of an array with an element type other than Null have the kind of that type. A placement
that succeeds in such a state leaves all arrays so exactly if the array admits what is placed. -/
theorem arrays_homogeneous (session : Session) (run : FittingRun session.host s) :
    (∀ v k, (s.heap.data v).elementKind? = some k → k ≠ .null →
      ∀ p ∈ s.heap.parts v, s.heap.kind p = k) ∧
    (∀ (act : Act) (p : Placement) (h : Heap), act.placement? = some p →
      (∀ v ∈ p.items, s.heap.Made v) → p.step s.heap = .ok () h →
      (h.Homogeneous ↔ ∀ v ∈ p.items, s.heap.Admits p.array v)) := by
  have held := run.owning (session_owning session)
  have homogeneous := held.realm.homogeneous trivial
  refine ⟨fun v k declared other p part => homogeneous v p part k declared other, ?_⟩
  intro act p h places made stored
  exact act.homogeneous_iff held.region homogeneous places made stored

/-- A declared list of integers. A text is refused when it is added, and there is no place 9 to
insert it at; a number is inserted, two elements change places, and a text is assigned to one of
them. -/
theorem arrays_homogeneous_numbers :
    let list := Expr.held "list"
    let program := Expr.sequence
      [.hold "list" (.unary .declare (.literal (.type (.array 1 2 .integer .refuse)))),
        .binary .add list (.literal (.integer 7)),
        .attempt (.binary .add list (.literal (.string "x"))),
        .attempt (.binary (.insertAt 9) list (.literal (.string "x"))),
        .binary (.insertAt 1) list (.literal (.integer 8)),
        .unary (.swap 1 2) list,
        .binary .assign (.unary (.elementAt 1) list) (.literal (.string "5"))]
    let s := endState (program.eval (.free 9)) (bare .default)
    (s.heap.data ⟨3⟩).elementKind? = some .integer ∧ s.heap.parts ⟨3⟩ = [⟨4⟩, ⟨7⟩, ⟨2⟩] ∧
      ∀ p ∈ s.heap.parts ⟨3⟩, s.heap.kind p = .integer := by
  intro list program s
  have fitting : Fitting program 9 (bare .default) := fitting_of_not_gaveUp (by decide +kernel)
  have run : FittingRun (bare .default) s := .single (.evaluate program 9 fitting)
  have declared : (s.heap.data ⟨3⟩).elementKind? = some .integer := by decide +kernel
  obtain ⟨homogeneous, -⟩ := arrays_homogeneous ⟨.default, true, [], none⟩ run
  exact ⟨declared, by decide +kernel, homogeneous ⟨3⟩ .integer declared (by simp)⟩

/-- **A text in an array of integers**, inserted at a place, or in place of all elements. -/
theorem arrays_mixed :
    let list := Expr.hold "list" (.unary .declare (.literal (.type (.array 1 1 .integer .refuse))))
    let s := Session.after (bare .default) [list,
      .binary (.insertAt 1) (.held "list") (.literal (.string "x"))]
    let t :=
      Session.after (bare .default) [list, .setElements (.held "list") [.literal (.string "x")]]
    (s.Reachable ∧ (s.heap.data ⟨2⟩).elementKind? = some .integer ∧ s.heap.parts ⟨2⟩ = [⟨3⟩, ⟨1⟩] ∧
      s.heap.kind ⟨3⟩ = .string) ∧
    t.Reachable ∧ (t.heap.data ⟨2⟩).elementKind? = some .integer ∧ t.heap.parts ⟨2⟩ = [⟨3⟩] ∧
      t.heap.kind ⟨3⟩ = .string := by
  intro list s t
  have reachable : ∀ es, (Session.after (bare .default) es).Reachable :=
    reachable_after ⟨.default, true, [], none⟩
  refine ⟨⟨reachable _, ?_, ?_, ?_⟩, reachable _, ?_, ?_, ?_⟩
  all_goals decide +kernel

end Host

end ScriptHost
