import ScriptHost.Proofs.Heap.Assign

/-!
# What an assignment writes

An assignment enters arrays and structures and replaces everything else, and what it replaces is
given new cells. The cells it can come to are those that the target spans: `Heap.Spans` leads
through arrays and structures only. A cell may be entered twice, and what it holds may have been
replaced in between, since nothing keeps the target and the source from sharing cells; but then it
holds new cells alone. So `Heap.Assigned base S h` is kept by every step of an assignment: since the
heap was `base`, only unlocked cells in `S` have been replaced, no array or structure among them,
and all that is new or replaced holds new cells only, each of them in one place.

The new cells come from copies. `Heap.Sprouts` says what copying adds to a heap: cells apart from
all others, each held in one place at most. The copy itself is held by none.
-/

set_option autoImplicit false

namespace ScriptHost

/-- Named parts replaced one by one, without their names. -/
theorem Data.map_snd_mapM {κ ρ σ ω ε : Type} (f : ρ → EStateM ε ω σ) (es : List (κ × ρ)) :
    List.map (·.2) <$> es.mapM (fun (k, p) => do return (k, ← f p)) = (es.map (·.2)).mapM f := by
  induction es with
  | nil => simp
  | cons e es ih => simp [List.mapM_cons, ← ih]

/-- Parts replaced one by one are the parts of what is made of them. -/
theorem Data.parts_mapM {ρ σ ω ε : Type} (f : ρ → EStateM ε ω σ) (d : Data ρ) :
    Data.parts <$> d.mapM f = d.parts.mapM f := by
  cases d with
  | leaf l => rfl
  | array a => simp [mapM, Sequence.mapM, parts]
  | dictionary d =>
    simpa [mapM, Dictionary.mapM, parts, Dictionary.values] using map_snd_mapM f d.entries
  | record r => simpa [mapM, Record.mapM, parts, Record.values] using map_snd_mapM f r.members

theorem Data.mapM_of_parts {ρ σ ω ε : Type} {f : ρ → EStateM ε ω σ} {s t : ω} {d : Data ρ}
    {qs : List σ} (run : d.parts.mapM f s = .ok qs t) :
    ∃ e, d.mapM f s = .ok e t ∧ e.parts = qs := by
  rw [← parts_mapM] at run
  cases whole : d.mapM f s with
  | ok e u =>
    simp only [Functor.map, EStateM.map, whole] at run
    cases run
    exact ⟨e, rfl, rfl⟩
  | error x u =>
    simp only [Functor.map, EStateM.map, whole] at run
    cases run

namespace Heap

open Course

variable {h h' h'' : Heap} {v p : Handle}

/-! ## Cells and their holders -/

/-- Parts are cells that have been made. -/
def Complete (h : Heap) : Prop := ∀ v, ∀ p ∈ h.parts v, h.Made p

/-- Nothing holds the cell. -/
def Free (h : Heap) (p : Handle) : Prop := ∀ u, p ∉ h.parts u

/-- The cell is held in one place at most. -/
structure HeldOnce (h : Heap) (p : Handle) : Prop where
  holder : ∀ u w, p ∈ h.parts u → p ∈ h.parts w → u = w
  place : ∀ u, (h.parts u).count p ≤ 1

theorem Free.heldOnce (free : h.Free p) : h.HeldOnce p where
  holder u _ part := absurd part (free u)
  place u := by rw [List.count_eq_zero.mpr (free u)]; exact Nat.zero_le _

/-- A cell whose holders are among those it had stays held in one place. -/
theorem HeldOnce.of_parts (once : h.HeldOnce p)
    (same : ∀ u, p ∈ h'.parts u → h'.parts u = h.parts u) : h'.HeldOnce p where
  holder u w first second := once.holder u w (same u first ▸ first) (same w second ▸ second)
  place u := by
    by_cases part : p ∈ h'.parts u
    · rw [same u part]
      exact once.place u
    · rw [List.count_eq_zero.mpr part]
      exact Nat.zero_le _

/-- A cell that is put in one place and held by nothing else. -/
theorem heldOnce_of_holder {u : Handle} (others : ∀ w, w ≠ u → p ∉ h.parts w)
    (place : (h.parts u).Nodup) : h.HeldOnce p := by
  have only : ∀ w, p ∈ h.parts w → w = u := by
    intro w part
    by_contra other
    exact others w other part
  refine ⟨fun w x first second => (only w first).trans (only x second).symm, fun w => ?_⟩
  by_cases here : w = u
  · subst here
    exact List.nodup_iff_count_le_one.mp place p
  · rw [List.count_eq_zero.mpr (others w here)]
    exact Nat.zero_le _

/-! ## Copies stand apart -/

/-- The heap has got cells that hold none of those there were, each held in one place at most. -/
structure Sprouts (h h' : Heap) : Prop where
  ext : h.Extends h'
  apart : ∀ u, ¬ h.Made u → ∀ p ∈ h'.parts u, ¬ h.Made p
  once : ∀ p, ¬ h.Made p → h'.Made p → h'.HeldOnce p

theorem Sprouts.refl (h : Heap) : h.Sprouts h where
  ext := .refl h
  apart _ new _ part := absurd (made_of_part part) new
  once _ new made := absurd made new

/-- What holds a cell that was there is as it was. -/
theorem Sprouts.parts_eq (sprouts : h.Sprouts h') (made : h.Made p) {u : Handle}
    (part : p ∈ h'.parts u) : h'.parts u = h.parts u := by
  by_cases old : h.Made u
  · exact parts_congr (sprouts.ext.cell u old)
  · exact absurd made (sprouts.apart u old p part)

theorem Sprouts.free (sprouts : h.Sprouts h') (made : h.Made p) (free : h.Free p) : h'.Free p := by
  intro u part
  have old := part
  rw [sprouts.parts_eq made part] at old
  exact free u old

theorem Sprouts.trans (first : h.Sprouts h') (second : h'.Sprouts h'') : h.Sprouts h'' where
  ext := first.ext.trans second.ext
  apart u new p part := by
    by_cases made : h'.Made u
    · exact first.apart u new p (by rwa [parts_congr (second.ext.cell u made)] at part)
    · exact fun old => second.apart u made p part (first.ext.made old)
  once p new made := by
    by_cases between : h'.Made p
    · exact (first.once p new between).of_parts fun u part => second.parts_eq between part
    · exact second.once p between made

/-- Heaps to which copies are added. -/
def sprouting : Course Heap where
  holds := Complete
  goes := Sprouts
  refl := Sprouts.refl
  trans := Sprouts.trans

/-- The cell is new and ready to be held. -/
structure Loose (base : Heap) (p : Handle) (h : Heap) : Prop where
  new : ¬ base.Made p
  made : h.Made p
  free : h.Free p

/-- One more cell, which holds what has been made since the heap was `base`. -/
theorem Sprouts.push {base : Heap} {c : Cell} (sprouts : base.Sprouts h) (complete : h.Complete)
    (distinct : c.data.parts.Nodup) (loose : ∀ q ∈ c.data.parts, Loose base q h) :
    (h.push c).Complete ∧ base.Sprouts (h.push c) ∧ Loose base ⟨h.size⟩ (h.push c) := by
  have ext := extends_push h c
  have added : (h.push c).parts ⟨h.size⟩ = c.data.parts := by simp [parts, data]
  have old : ∀ u, u ≠ ⟨h.size⟩ → (h.push c).parts u = h.parts u := by
    intro u other
    by_cases made : h.Made u
    · exact parts_congr (ext.cell u made)
    · have no : ¬ (h.push c).Made u := fun is => (made_push.mp is).elim made other
      rw [parts_of_not_made no, parts_of_not_made made]
  have new : ¬ base.Made ⟨h.size⟩ := Nat.not_lt.mpr sprouts.ext.size_le
  have before : ∀ u, ∀ p ∈ (h.push c).parts u, h.Made p := by
    intro u p part
    by_cases here : u = ⟨h.size⟩
    · subst here
      rw [added] at part
      exact (loose p part).made
    · rw [old u here] at part
      exact complete u p part
  refine ⟨fun u p part => ext.made (before u p part), ⟨sprouts.ext.trans ext, ?_, ?_⟩, new,
    made_push.mpr (.inr rfl), ?_⟩
  · intro u outside p part
    by_cases here : u = ⟨h.size⟩
    · subst here
      rw [added] at part
      exact (loose p part).new
    · rw [old u here] at part
      exact sprouts.apart u outside p part
  · intro p outside made
    by_cases inside : p ∈ c.data.parts
    · -- `p` was free, so the new cell is its one holder
      refine heldOnce_of_holder (u := ⟨h.size⟩) (fun w other part => ?_) (by rwa [added])
      rw [old w other] at part
      exact (loose p inside).free w part
    · have kept : ∀ u, p ∈ (h.push c).parts u → (h.push c).parts u = h.parts u := by
        intro u part
        apply old u
        rintro rfl
        exact inside (added ▸ part)
      obtain made | rfl := made_push.mp made
      · exact (sprouts.once p outside made).of_parts kept
      · exact (Free.heldOnce fun u part => not_made_next h (complete u _ part)).of_parts kept
  · exact fun u part => not_made_next h (before u _ part)

/-- Copies made one after the other. -/
theorem sprouts_mapM {f : Handle → HeapM Handle} (ps : List Handle) (complete : h.Complete)
    (each : ∀ p t, t.Complete → sprouting.Yields (f p) t (Loose t)) :
    sprouting.Yields (ps.mapM f) h fun qs h' => qs.Nodup ∧ ∀ q ∈ qs, Loose h q h' := by
  induction ps generalizing h with
  | nil => exact .pure complete (by simp)
  | cons p ps ih =>
    rw [List.mapM_cons]
    refine (each p h complete).bind fun q t complete gone loose => ?_
    refine (ih complete).bind fun qs u complete further ⟨distinct, rest⟩ => .pure complete ⟨?_, ?_⟩
    · exact List.nodup_cons.mpr ⟨fun mem => (rest q mem).new loose.made, distinct⟩
    · intro x mem
      rcases List.mem_cons.mp mem with rfl | mem
      · exact ⟨loose.new, further.ext.made loose.made, further.free loose.made loose.free⟩
      · exact ⟨fun old => (rest x mem).new (gone.ext.made old), (rest x mem).made,
          (rest x mem).free⟩

/-- Contents with copies for parts. -/
theorem sprouts_parts {f : Handle → HeapM Handle} (d : Data Handle) (complete : h.Complete)
    (each : ∀ p t, t.Complete → sprouting.Yields (f p) t (Loose t)) :
    sprouting.Yields (d.mapM f) h fun e h' => e.parts.Nodup ∧ ∀ q ∈ e.parts, Loose h q h' := by
  obtain ⟨qs, t, run, complete, sprouts, result⟩ := sprouts_mapM d.parts complete each
  obtain ⟨e, whole, rfl⟩ := Data.mapM_of_parts run
  exact ⟨e, t, whole, complete, sprouts, result⟩

/-- **Copies stand apart**, with any number of levels: a copy is made of new cells, each held in one
place, and is held by none. -/
theorem sprouts_copyTo (keep : Bool) (n : Nat) (v : Handle) (complete : h.Complete) :
    sprouting.Yields (HeapM.copyTo keep n v) h (Loose h) := by
  induction n generalizing h v with
  | zero =>
    obtain ⟨complete, sprouts, loose⟩ :=
      (Sprouts.refl h).push (c := ⟨.leaf .null, false⟩) complete (by simp [Data.parts])
      (by simp [Data.parts])
    exact ⟨_, _, rfl, complete, sprouts, loose⟩
  | succ n ih =>
    obtain ⟨d, t, run, complete, sprouts, distinct, loose⟩ :=
      sprouts_parts (h.data v) complete fun p t => ih p
    obtain ⟨complete, sprouts, loose⟩ :=
      sprouts.push (c := ⟨d, keep && h.isLocked v⟩) complete distinct loose
    refine ⟨⟨t.size⟩, _, ?_, complete, sprouts, loose⟩
    simp only [HeapM.copyTo, HeapM.look, HeapM.dataOf, HeapM.alloc, Bind.bind, EStateM.bind, run]

theorem sprouts_copyData (v : Handle) (complete : h.Complete) :
    sprouting.Yields (HeapM.copyData v) h fun d h' => d.parts.Nodup ∧ ∀ q ∈ d.parts, Loose h q h' :=
  sprouts_parts (h.data v) complete fun p _ => sprouts_copyTo false h.levels p

/-! ## What a target spans -/

/-- `Spans h v w`: from `v` one comes to `w` through arrays and structures. -/
inductive Spans (h : Heap) : Handle → Handle → Prop where
  | refl (v : Handle) : Spans h v v
  | step {v p w : Handle} (entered : (h.data v).isEntered = true) (part : p ∈ h.parts v)
    (rest : Spans h p w) : Spans h v w

theorem Spans.reaches {w : Handle} (spans : h.Spans v w) : h.Reaches v w := by
  induction spans with
  | refl => exact .refl _
  | step _ part _ ih => exact .step part ih

theorem Spans.trans {u w : Handle} (first : h.Spans u v) (second : h.Spans v w) : h.Spans u w := by
  induction first with
  | refl => exact second
  | step entered part _ ih => exact .step entered part (ih second)

/-- A set of cells that an assignment does not leave: it holds the parts of what is entered. -/
def Entire (h : Heap) (S : Handle → Prop) : Prop :=
  ∀ u, S u → (h.data u).isEntered = true → ∀ p ∈ h.parts u, S p

theorem spans_entire (h : Heap) (v : Handle) : h.Entire (h.Spans v) :=
  fun _ spans entered _ part => spans.trans (.step entered part (.refl _))

/-! ## Assignments -/

/-- The cell has been replaced since the heap was `base`, as an assignment to `S` can do. -/
structure Replaced (base : Heap) (S : Handle → Prop) (w : Handle) (h : Heap) : Prop where
  inside : S w
  unentered : (base.data w).isEntered = false
  unlocked : base.isLocked w = false
  still : h.isLocked w = false
  apart : ∀ p ∈ h.parts w, ¬ base.Made p

/-- What assignments to `S` have made of the heap `base`. -/
structure Assigned (base : Heap) (S : Handle → Prop) (h : Heap) : Prop where
  complete : h.Complete
  size_le : base.size ≤ h.size
  cell : ∀ w, base.Made w → h.cell w = base.cell w ∨ Replaced base S w h
  apart : ∀ u, ¬ base.Made u → ∀ p ∈ h.parts u, ¬ base.Made p
  once : ∀ p, ¬ base.Made p → h.HeldOnce p

namespace Assigned

variable {base : Heap} {S : Handle → Prop} {target source : Handle}

theorem start (complete : h.Complete) (S : Handle → Prop) : Assigned h S h where
  complete := complete
  size_le := Nat.le_refl _
  cell _ _ := .inl rfl
  apart _ new _ part := absurd (made_of_part part) new
  once _ new := Free.heldOnce fun u part => new (complete u _ part)

theorem made (assigned : Assigned base S h) (made : base.Made v) : h.Made v :=
  Nat.lt_of_lt_of_le made assigned.size_le

/-- The parts of what is entered are new, or in the set. -/
theorem part (assigned : Assigned base S h) (entire : base.Entire S)
    (inside : base.Made target → S target) (entered : (h.data target).isEntered = true)
    (part : p ∈ h.parts target) : base.Made p → S p := by
  intro old
  by_cases made : base.Made target
  · rcases assigned.cell target made with same | replaced
    · rw [data_congr same] at entered
      rw [parts_congr same] at part
      exact entire target (inside made) entered p part
    · exact absurd old (replaced.apart p part)
  · exact absurd old (assigned.apart target made p part)

/-- Copies are made on the way. -/
theorem sprouts (assigned : Assigned base S h) (sprouts : h.Sprouts h') (complete : h'.Complete) :
    Assigned base S h' where
  complete := complete
  size_le := Nat.le_trans assigned.size_le sprouts.ext.size_le
  cell w made := by
    have same := sprouts.ext.cell w (assigned.made made)
    rcases assigned.cell w made with before | replaced
    · exact .inl (same.trans before)
    · refine .inr { replaced with still := ?_, apart := ?_ }
      · rw [isLocked_congr same]
        exact replaced.still
      · rw [parts_congr same]
        exact replaced.apart
  apart u new p part old := by
    rw [sprouts.parts_eq (assigned.made old) part] at part
    exact assigned.apart u new p part old
  once p new := by
    by_cases before : h.Made p
    · exact (assigned.once p new).of_parts fun u part => sprouts.parts_eq before part
    · by_cases after : h'.Made p
      · exact sprouts.once p before after
      · exact Free.heldOnce fun u part => after (complete u p part)

/-- A cell that is not entered takes on contents with new parts. -/
theorem write {d : Data Handle} (assigned : Assigned base S h)
    (inside : base.Made target → S target) (unlocked : h.isLocked target = false)
    (unentered : (h.data target).isEntered = false) (distinct : d.parts.Nodup)
    (loose : ∀ q ∈ d.parts, Loose base q h) : Assigned base S (h.setCell target ⟨d, false⟩) := by
  have here : (h.setCell target ⟨d, false⟩).cell target = ⟨d, false⟩ :=
    cell_setCell_self h target _ (made_of_unlocked unlocked)
  have parts : (h.setCell target ⟨d, false⟩).parts target = d.parts := by
    simp only [Heap.parts, data, here]
  have there : ∀ w, w ≠ target → (h.setCell target ⟨d, false⟩).cell w = h.cell w :=
    fun w => cell_setCell_ne h _
  refine ⟨?_, by simpa using assigned.size_le, ?_, ?_, ?_⟩
  · intro u p part
    rw [made_setCell]
    by_cases same : u = target
    · subst same
      rw [parts] at part
      exact (loose p part).made
    · rw [parts_congr (there u same)] at part
      exact assigned.complete u p part
  · intro w made
    by_cases same : w = target
    · subst same
      -- it may have been replaced before: then it was not entered in `base` either
      have before : (base.data w).isEntered = false ∧ base.isLocked w = false := by
        rcases assigned.cell w made with same | replaced
        · rw [← data_congr same, ← isLocked_congr same]
          exact ⟨unentered, unlocked⟩
        · exact ⟨replaced.unentered, replaced.unlocked⟩
      refine .inr ⟨inside made, before.1, before.2, by rw [isLocked, here], fun p part => ?_⟩
      rw [parts] at part
      exact (loose p part).new
    · rcases assigned.cell w made with before | replaced
      · exact .inl ((there w same).trans before)
      · refine .inr { replaced with still := ?_, apart := ?_ }
        · rw [isLocked_congr (there w same)]
          exact replaced.still
        · rw [parts_congr (there w same)]
          exact replaced.apart
  · intro u new p part
    by_cases same : u = target
    · subst same
      rw [parts] at part
      exact (loose p part).new
    · rw [parts_congr (there u same)] at part
      exact assigned.apart u new p part
  · intro p new
    by_cases given : p ∈ d.parts
    · refine heldOnce_of_holder (u := target) (fun w other part => ?_) (by rwa [parts])
      rw [parts_congr (there w other)] at part
      exact (loose p given).free w part
    · refine (assigned.once p new).of_parts fun u part => parts_congr (there u ?_)
      rintro rfl
      exact given (parts ▸ part)

end Assigned

/-- Heaps in the course of assignments to `S`. -/
def assigning (base : Heap) (S : Handle → Prop) : Course Heap where
  holds := Assigned base S
  goes _ _ := True
  refl _ := trivial
  trans _ _ := trivial

section Assign

variable {base : Heap} {S : Handle → Prop} {target source : Handle}

/-- A cell that is not entered takes over copies. -/
theorem assigning_adopt (assigned : Assigned base S h) (inside : base.Made target → S target)
    (unlocked : h.isLocked target = false) (unentered : (h.data target).isEntered = false) :
    (assigning base S).Leads (HeapM.copyData source >>= HeapM.write target) h fun _ _ => True := by
  obtain ⟨d, t, run, complete, sprouts, distinct, loose⟩ :=
    sprouts_copyData source assigned.complete
  have same := sprouts.ext.cell target (made_of_unlocked unlocked)
  have still := sprouts.ext.unlocked unlocked
  have whole : (HeapM.copyData source >>= HeapM.write target) h =
      .ok () (t.setCell target ⟨d, false⟩) :=
    (HeapM.bind_of_ok run _).trans (HeapM.write_of_unlocked still d)
  refine .of_ok whole ?_ trivial trivial
  refine (assigned.sprouts sprouts complete).write inside still (by rwa [data_congr same]) distinct
    fun q part => ?_
  exact ⟨fun old => (loose q part).new (assigned.made old), (loose q part).made,
    (loose q part).free⟩

/-- **What an assignment writes**, with any number of levels and any sharing of cells. -/
theorem assigning_assigner {f : Handle → Handle → HeapM Unit} (assigner : HeapM.Assigner f)
    (entire : base.Entire S) (assigned : Assigned base S h) (inside : base.Made target → S target) :
    (assigning base S).Leads (f target source) h fun _ _ => True := by
  refine assigner.leads (I := fun t _ _ => base.Made t → S t) ?_ ?_ ?_ assigned inside
  · intro t v h assigned inside unlocked adopts
    exact assigning_adopt assigned inside unlocked adopts.unentered
  · intro t v h l m assigned inside unlocked held _ _
    refine Leads.write assigned fun _ => ⟨?_, trivial, trivial⟩
    exact assigned.write inside unlocked (by rw [held]; rfl) (by simp [Data.parts])
      (by simp [Data.parts])
  · intro t v p q h u assigned inside entered left _ _ _
    exact assigned.part entire inside entered left

/-- **Assignment** from a heap on, to cells in a set that it does not leave. -/
theorem assigned_assign (complete : h.Complete) (entire : h.Entire S) (inside : S target) :
    Assigned h S (endState (HeapM.assign target source) h) := by
  have leads : (assigning h S).Leads (HeapM.assign target source) h fun _ _ => True :=
    assigning_assigner .assign entire (.start complete S) fun _ => inside
  exact leads.atEnd.1

end Assign

end Heap

end ScriptHost
