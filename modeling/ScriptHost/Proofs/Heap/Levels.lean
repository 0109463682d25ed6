import ScriptHost.Proofs.Heap.Hereditary
import ScriptHost.Proofs.Heap.Tree

/-!
# Assignment without levels

An assignment goes down its target level by level, and the target can become deeper on the way:
where it shares cells with the source, a Null takes over a copy of something that it is itself a
part of, and is come to once more. Two facts keep the way down finite. Arrays and structures that
were there at the start keep their parts, so as long as the assignment is at old cells it goes down
the heap as it was. And new cells hold new cells only, each in one place: from the first one on, the
assignment goes down a tree, whose parts are assigned to once each.

So more levels than `HeapM.assign` is given make no difference (`eventually_assign`), and an
assignment is one level of an assignment that leaves the parts to assignments
(`WellFormed.assign_eq`).
-/

set_option autoImplicit false

namespace ScriptHost

open Filter

/-! ## What an assignment passes on to -/

theorem Named.exists_find {α : Type} {name : String} {l : List (String × α)}
    (mem : name ∈ l.map (·.1)) : ∃ a, find name l = some a := by
  induction l with
  | nil => cases mem
  | cons p l ih =>
    by_cases here : p.1 = name
    · exact ⟨p.2, by simp [find, here]⟩
    · obtain ⟨a, found⟩ := ih (by simpa [Ne.symm here] using mem)
      exact ⟨a, by simp [find, here, found]⟩

namespace Data

/-- The parts that an assignment passes on to, each with the one that is assigned to it. -/
def passes : Data Handle → Data Handle → List (Handle × Handle)
  | .array s, .array q => s.items.zip q.items
  | .record r, .record q =>
    q.members.filterMap fun m => (Named.find m.1 r.members).map fun t => (t, m.2)
  | _, _ => []

variable {d e : Data Handle} {p : Handle × Handle}

/-- An assignment passes on to parts, of the target and of the source. -/
theorem mem_passes (mem : p ∈ d.passes e) : p.1 ∈ d.parts ∧ p.2 ∈ e.parts := by
  unfold passes at mem
  split at mem
  · exact List.of_mem_zip mem
  · obtain ⟨m, inside, paired⟩ := List.mem_filterMap.mp mem
    obtain ⟨t, found, rfl⟩ := Option.map_eq_some_iff.mp paired
    exact ⟨List.mem_map_of_mem (f := (·.2)) (Named.mem_of_find found), List.mem_map_of_mem inside⟩
  · cases mem

/-- No part is passed on to twice: in a structure that would take two members of one name. -/
theorem nodup_passes (once : d.parts.Nodup) (distinct : e.Distinct) :
    ((d.passes e).map (·.1)).Nodup := by
  unfold passes
  split
  next s q =>
    rw [List.zip_eq_zip_take_min, List.map_fst_zip (by simp)]
    exact once.sublist (List.take_sublist _ _)
  next r q =>
    have firsts :
        (q.members.filterMap fun m => (Named.find m.1 r.members).map fun t => (t, m.2)).map (·.1) =
          q.names.filterMap fun name => Named.find name r.members := by
      simp [Record.names, List.map_filterMap, List.filterMap_map, Function.comp_def]
    rw [firsts]
    refine (distinct.names q rfl).filterMap fun name other t left right => ?_
    have same :=
      List.inj_on_of_nodup_map once (Named.mem_of_find left) (Named.mem_of_find right) rfl
    exact congrArg Prod.fst same
  · exact List.nodup_nil

end Data

namespace Heap

variable {h u : Heap} {t s : Handle} {n m : Nat} {f : Handle → Handle → HeapM Unit}

/-- The members that a structure has are assigned to one after the other. -/
theorem forM_assignMember {r : Record Handle} {ms : List (String × Handle)}
    (known : ∀ m ∈ ms, m.1 ∈ r.names) :
    ms.forM (assignMember f r) =
      (ms.filterMap fun m => (Named.find m.1 r.members).map fun t => (t, m.2)).forM fun p =>
        f p.1 p.2 := by
  induction ms with
  | nil => rfl
  | cons m ms ih =>
    obtain ⟨t, found⟩ := Named.exists_find (known m (by simp))
    have first : assignMember f r m = f t m.2 := by
      rw [assignMember, Record.get, found]
      rfl
    have rest := ih fun m mem => known m (by simp [mem])
    rw [List.filterMap_cons_some (b := (t, m.2)) (by simp [found])]
    change (assignMember f r m >>= fun _ => ms.forM (assignMember f r)) =
      (f t m.2 >>= fun _ => List.forM _ _)
    rw [first, rest]

/-- **One level of an assignment** is over with the target itself, or passes on to its parts. -/
theorem assignOnce_cases (h : Heap) (t s : Handle) : (∃ r, ∀ f, HeapM.assignOnce f t s h = r) ∨
    ∀ f, HeapM.assignOnce f t s h = ((h.data t).passes (h.data s)).forM (fun p => f p.1 p.2) h := by
  cases locked : h.isLocked t with
  | true =>
    refine .inl ⟨.error .valueLocked h, fun f => ?_⟩
    unfold HeapM.assignOnce
    exact HeapM.bind_of_error (HeapM.writable_of_locked locked) _
  | false =>
    by_cases same : t = s
    · refine .inl ⟨.ok () h, fun f => ?_⟩
      unfold HeapM.assignOnce
      rw [HeapM.bind_of_ok (HeapM.writable_of_unlocked locked), if_pos same]
      rfl
    have run : ∀ f, HeapM.assignOnce f t s h = assignContents f t s (h.data s) (h.data t) h :=
      fun f => run_assignOnce locked same
    simp only [run]
    cases h.data t with
    | leaf l => cases l <;> exact .inl ⟨_, fun f => rfl⟩
    | dictionary d => exact .inl ⟨_, fun f => rfl⟩
    | array a =>
      cases h.data s with
      | array q =>
        simp only [assignContents, HeapM.sourceItems]
        split
        · exact .inr fun f => rfl
        · exact .inl ⟨_, fun f => rfl⟩
      | _ => exact .inl ⟨_, fun f => rfl⟩
    | record r =>
      cases h.data s with
      | record q =>
        simp only [assignContents, HeapM.sourceMembers]
        split
        next known =>
          refine .inr fun f => ?_
          have names : ∀ m ∈ q.members, m.1 ∈ r.names := fun m mem => by
            simpa using List.all_eq_true.mp known.2 m.1 (List.mem_map_of_mem mem)
          exact congrFun (forM_assignMember names) h
        · exact .inl ⟨_, fun f => rfl⟩
      | _ => exact .inl ⟨_, fun f => rfl⟩

/-! ## Assignments that come to agree -/

section Agreement

variable {α ι : Type} {l : Filter ι} {J : List α → Heap → Prop}

/-- Steps that come to agree one by one come to agree as a whole. What the next steps need is passed
on from one to the other, with the steps that are left. -/
theorem eventually_forM {g : ι → α → HeapM Unit} {f : α → HeapM Unit} {as : List α}
    (step : ∀ a as u, J (a :: as) u → (∀ᶠ i in l, g i a u = f a u) ∧ J as (endState (f a) u))
    (start : J as h) : ∀ᶠ i in l, as.forM (g i) h = as.forM f h := by
  induction as generalizing h with
  | nil => exact .of_forall fun _ => rfl
  | cons a as ih =>
    obtain ⟨first, rest⟩ := step a as h start
    have split : ∀ k : α → HeapM Unit, (a :: as).forM k h = (k a >>= fun _ => as.forM k) h :=
      fun k => rfl
    simp only [split]
    cases run : f a h with
    | error x u =>
      filter_upwards [first] with i same
      rw [HeapM.bind_of_error run, HeapM.bind_of_error (same.trans run)]
    | ok x u =>
      rw [endState, run] at rest
      filter_upwards [first, ih rest] with i same later
      rw [HeapM.bind_of_ok run, HeapM.bind_of_ok (same.trans run), later]

/-- **One level**: ways to assign that come to agree on the pairs passed on to come to agree on the
whole. -/
theorem eventually_assignOnce {J : List (Handle × Handle) → Heap → Prop}
    {g : ι → Handle → Handle → HeapM Unit}
    (step : ∀ p ps u, J (p :: ps) u → (∀ᶠ i in l, g i p.1 p.2 u = f p.1 p.2 u) ∧
      J ps (endState (f p.1 p.2) u))
    (start : J ((h.data t).passes (h.data s)) h) :
    ∀ᶠ i in l, HeapM.assignOnce (g i) t s h = HeapM.assignOnce f t s h := by
  obtain ⟨r, same⟩ | passed := assignOnce_cases h t s
  · exact .of_forall fun i => (same (g i)).trans (same f).symm
  · simp only [passed]
    exact eventually_forM (g := fun i p => g i p.1 p.2) step start

end Agreement

/-- An assignment keeps contents distinct. -/
theorem assigner_distinct (assigner : HeapM.Assigner f) (distinct : h.All Data.Distinct) :
    (endState (f t s) h).All Data.Distinct :=
  ((HeapM.inherits_assigner (D := Data.Distinct) assigner).leads h distinct).atEnd.1

/-! ## Trees -/

/-- What is left to be assigned, part by part, to different parts of a tree. -/
structure Ready (n : Nat) (ps : List (Handle × Handle)) (h : Heap) : Prop where
  formed : h.WellFormed
  distinct : h.All Data.Distinct
  forest : h.Forest (ps.map (·.1))
  ends : ∀ p ∈ ps, h.EndsIn n p.1
  given : ∀ p ∈ ps, h.Made p.2

/-- An assignment to one part leaves the others as they are. -/
theorem Ready.step {p : Handle × Handle} {ps : List (Handle × Handle)} (ready : Ready n (p :: ps) h)
    (assigner : HeapM.Assigner f) : Ready n ps (endState (f p.1 p.2) h) := by
  have first : p.1 ∈ (p :: ps).map (·.1) := by simp
  obtain ⟨formed, assigned⟩ :=
    endState_assigner assigner ready.formed (ready.forest.made p.1 first) (ready.given p (by simp))
  obtain ⟨forest, others⟩ := ready.forest.assigned ready.formed first assigned
  refine ⟨formed, assigner_distinct assigner ready.distinct, forest.tail, fun q mem => ?_,
    fun q mem => ?_⟩
  · have inside : q.1 ∈ ps.map (·.1) := List.mem_map_of_mem mem
    have other : q.1 ≠ p.1 := by
      intro same
      rw [same] at inside
      exact (List.nodup_cons.mp ready.forest.nodup).1 inside
    exact (others q.1 (List.mem_cons_of_mem _ inside) other).endsIn (ready.ends q (by simp [mem]))
  · exact assigned.made (ready.given q (by simp [mem]))

/-- **Trees.** More levels than a tree has make no difference to an assignment to it, whatever is
assigned. -/
theorem assignTo_eq (formed : h.WellFormed) (distinct : h.All Data.Distinct) (tree : h.IsTree t)
    (ends : h.EndsIn n t) (more : n ≤ m) : HeapM.assignTo m t s h = HeapM.assignTo n t s h := by
  induction n generalizing h t s m with
  | zero => exact ends.elim
  | succ n ih =>
    obtain ⟨m, rfl⟩ : ∃ k, m = k + 1 := ⟨m - 1, by omega⟩
    have agree : ∀ᶠ i in pure m,
        HeapM.assignOnce (HeapM.assignTo i) t s h = HeapM.assignOnce (HeapM.assignTo n) t s h := by
      refine eventually_assignOnce (J := Ready n) (fun p ps u ready =>
        ⟨?_, ready.step (.assignTo n)⟩) ?_
      · rw [eventually_pure]
        exact ih ready.formed ready.distinct (ready.forest.tree p.1 (by simp))
          (ready.ends p (by simp)) (by omega)
      · refine ⟨formed, distinct, ?_, fun p mem => ends p.1 (Data.mem_passes mem).1,
          fun p mem => ?_⟩
        · refine .ofNodup formed tree (fun x mem => ?_)
            (Data.nodup_passes (tree.place t (.refl t)) (distinct s))
          obtain ⟨p, passed, rfl⟩ := List.mem_map.mp mem
          exact (Data.mem_passes passed).1
        · exact formed.parts s p.2 (Data.mem_passes mem).2
    exact eventually_pure.mp agree

/-! ## Cells that were there -/

/-- What is left to be assigned in a heap that assignments have made of `base`. -/
structure Follows (base : Heap) (ps : List (Handle × Handle)) (h : Heap) : Prop where
  formed : h.WellFormed
  distinct : h.All Data.Distinct
  assigned : Assigned base (fun _ => True) h
  made : ∀ p ∈ ps, h.Made p.1 ∧ h.Made p.2

namespace Follows

variable {base : Heap} {p : Handle × Handle} {ps : List (Handle × Handle)}

/-- What is left to assign to is as before when one pair has been dealt with. -/
theorem step (follows : Follows base (p :: ps) h) (assigner : HeapM.Assigner f) :
    Follows base ps (endState (f p.1 p.2) h) := by
  obtain ⟨made, given⟩ := follows.made p (by simp)
  obtain ⟨formed, here⟩ := endState_assigner assigner follows.formed made given
  have assigned : (assigning base fun _ => True).Leads (f p.1 p.2) h fun _ _ => True :=
    assigning_assigner assigner (fun _ _ _ _ _ => trivial) follows.assigned fun _ => trivial
  refine ⟨formed, assigner_distinct assigner follows.distinct, assigned.atEnd.1, fun q mem => ?_⟩
  exact (follows.made q (by simp [mem])).imp here.made here.made

/-- The pairs that an assignment passes on to are ready for it. -/
theorem parts (follows : Follows base ps h) (t s : Handle) :
    Follows base ((h.data t).passes (h.data s)) h where
  formed := follows.formed
  distinct := follows.distinct
  assigned := follows.assigned
  made p mem := ⟨follows.formed.parts t p.1 (Data.mem_passes mem).1,
    follows.formed.parts s p.2 (Data.mem_passes mem).2⟩

/-- New cells form trees. -/
theorem isTree (follows : Follows base ps h) (new : ¬ base.Made t) : h.IsTree t := by
  have assigned := follows.assigned
  have inside : ∀ w, h.Reaches t w → ¬ base.Made w :=
    fun w reach => reach.closed (S := fun w => ¬ base.Made w) assigned.apart new
  refine ⟨fun v w p first _ left right => ?_,
    fun v first => List.nodup_iff_count_le_one.mpr fun p => ?_⟩
  · exact (assigned.once p (assigned.apart v (inside v first) p left)).holder v w left right
  · by_cases part : p ∈ h.parts v
    · exact (assigned.once p (assigned.apart v (inside v first) p part)).place v
    · rw [List.count_eq_zero.mpr part]
      exact Nat.zero_le _

/-- **Old cells.** An assignment that goes down the heap as it was at first has enough levels. -/
theorem eventually_assignWithin (follows : Follows base ps h) (ends : base.EndsIn n t) :
    ∀ᶠ m in atTop, HeapM.assignTo m t s h = HeapM.assignWithin base.size n t s h := by
  induction n generalizing h ps t s with
  | zero => exact ends.elim
  | succ n ih =>
    rw [← map_add_atTop_eq_nat 1, eventually_map, HeapM.assignWithin_succ]
    have part := (HeapM.Assigner.assignWithin base.size n).within base.size
    refine eventually_assignOnce
      (J := fun ps u => Follows base ps u ∧ ∀ p ∈ ps, base.Made p.1 → base.EndsIn n p.1)
      (fun p ps u ⟨follows, ends⟩ => ⟨?_, (follows.step part :),
        fun q mem => ends q (by simp [mem])⟩) ⟨follows.parts t s, ?_⟩
    · split
      next old => exact ih follows (ends p (by simp) old)
      next new =>
        filter_upwards [eventually_ge_atTop u.levels] with m more
        exact assignTo_eq follows.formed follows.distinct (follows.isTree new)
          (follows.formed.endsIn p.1) more
    · -- an old part has been a part all along
      intro p mem old
      obtain ⟨-, same⟩ := follows.assigned.parts_of_old (Data.mem_passes mem).1 old
      exact ends p.1 (same ▸ (Data.mem_passes mem).1)

end Follows

/-! ## Assignment -/

/-- At first nothing has been assigned. -/
theorem WellFormed.follows (formed : h.WellFormed) (distinct : h.All Data.Distinct) :
    Follows h [] h :=
  ⟨formed, distinct, .start formed.parts _, fun _ mem => absurd mem List.not_mem_nil⟩

/-- **Enough levels for an assignment**: more of them make no difference. -/
theorem WellFormed.eventually_assign (formed : h.WellFormed) (distinct : h.All Data.Distinct)
    (t s : Handle) : ∀ᶠ m in atTop, HeapM.assignTo m t s h = HeapM.assign t s h :=
  (formed.follows distinct).eventually_assignWithin (formed.endsIn t)

/-- **Assignment without levels**, also where the target and the source share cells. -/
theorem WellFormed.assign_eq (formed : h.WellFormed) (distinct : h.All Data.Distinct)
    (t s : Handle) : HeapM.assign t s h = HeapM.assignOnce HeapM.assign t s h := by
  have whole : ∀ᶠ m in atTop, HeapM.assignTo (m + 1) t s h = HeapM.assign t s h :=
    (tendsto_add_atTop_nat 1).eventually (formed.eventually_assign distinct t s)
  have parts : ∀ᶠ m in atTop,
      HeapM.assignOnce (HeapM.assignTo m) t s h = HeapM.assignOnce HeapM.assign t s h :=
    eventually_assignOnce (J := Follows h)
      (fun p ps u follows => ⟨follows.formed.eventually_assign follows.distinct p.1 p.2,
        follows.step .assign⟩)
      ((formed.follows distinct).parts t s)
  obtain ⟨m, left, right⟩ := (whole.and parts).exists
  exact left.symm.trans right

end Heap

end ScriptHost
