import ScriptHost.Heap.Compare
import ScriptHost.Proofs.Heap.Assign

/-!
# Walks without levels

Copying, locking, comparing and stepping go down a value one level at a time, and are given a number
of levels to stop at. In a well-formed heap the number has no effect: each of them satisfies the
equation that a walk without levels would be defined by, where the parts are walked by the very same
operation (`WellFormed.copy_eq`, `lock_eq`, `WellFormed.exactlyEqual_eq`, `WellFormed.step_eq`;
`WellFormed.image_eq` is the one for images).

A walk is written as one level of itself, given the walk for the parts.
-/

set_option autoImplicit false

namespace ScriptHost

open Course

namespace Heap

variable {h : Heap} {v : Handle} {n m : Nat}

/-! ## Equality -/

/-- One level of a comparison. -/
def equalOnce (h : Heap) (reals : Float → Float → Bool) (equal : Handle → Handle → Bool)
    (a b : Handle) : Bool :=
  a == b ||
  match h.data a, h.data b with
  | .leaf l, .leaf m => l.equal reals m
  | .array s, .array t =>
    s.start == t.start && s.length == t.length && (s.items.zip t.items).all fun (x, y) => equal x y
  | .dictionary d, .dictionary e =>
    d.length == e.length && d.entries.all fun (k, x) =>
      match e.get? k with
      | some y => equal x y
      | none => false
  | .record r, .record s =>
    r.length == s.length && (r.members.zip s.members).all fun ((m, x), (k, y)) =>
      m == k && equal x y
  | _, _ => false

theorem equalTo_succ (reals : Float → Float → Bool) (a b : Handle) :
    h.equalTo reals (n + 1) a b = h.equalOnce reals (h.equalTo reals n) a b := rfl

theorem all_congr_mem {α : Type} {l : List α} {p q : α → Bool} (same : ∀ a ∈ l, p a = q a) :
    l.all p = l.all q := by
  rw [Bool.eq_iff_iff, List.all_eq_true, List.all_eq_true]
  exact forall₂_congr fun a mem => by rw [same a mem]

/-- One level of the comparison asks about parts and about nothing else. -/
theorem equalOnce_congr {reals : Float → Float → Bool} {f g : Handle → Handle → Bool} {a b : Handle}
    (same : ∀ x ∈ h.parts a, ∀ y, f x y = g x y) :
    h.equalOnce reals f a b = h.equalOnce reals g a b := by
  unfold equalOnce
  unfold parts at same
  congr 1
  cases left : h.data a <;> cases right : h.data b <;> rw [left] at same <;> try rfl
  case array.array s t =>
    refine congrArg (s.start == t.start && s.length == t.length && ·)
      (all_congr_mem fun p mem => ?_)
    exact same p.1 (List.of_mem_zip mem).1 p.2
  case dictionary.dictionary d e =>
    refine congrArg (d.length == e.length && ·) (all_congr_mem fun p mem => ?_)
    dsimp only
    split
    · exact same p.2 (List.mem_map_of_mem mem) _
    · rfl
  case record.record r s =>
    refine congrArg (r.length == s.length && ·) (all_congr_mem fun p mem => ?_)
    have part : p.1.2 ∈ r.values := List.mem_map_of_mem (List.of_mem_zip mem).1
    simp only [same p.1.2 part p.2.2]

/-- **Levels below the end of a value** do not count for its comparison. -/
theorem equalTo_eq {reals : Float → Float → Bool} {a b : Handle} (ends : h.EndsIn n a)
    (more : n ≤ m) : h.equalTo reals m a b = h.equalTo reals n a b := by
  induction n generalizing a b m with
  | zero => exact ends.elim
  | succ n ih =>
    cases m with
    | zero => omega
    | succ m =>
      rw [equalTo_succ, equalTo_succ]
      exact equalOnce_congr fun x part y => ih (ends x part) (by omega)

/-- **Comparing without levels.** -/
theorem WellFormed.exactlyEqual_eq (formed : h.WellFormed) (a b : Handle) :
    h.exactlyEqual a b = h.equalOnce (· == ·) h.exactlyEqual a b := by
  have whole : h.exactlyEqual a b = h.equalTo (· == ·) (h.levels + 1) a b :=
    (equalTo_eq (formed.endsIn a) (by omega)).symm
  rw [whole]
  rfl

/-! ## Copies -/

/-- One level of a copy. -/
def copyOnce (copy : Handle → HeapM Handle) (v : Handle) : HeapM Handle := do
  HeapM.new (← (← HeapM.dataOf v).mapM copy)

theorem copyTo_succ (v : Handle) (h : Heap) :
    HeapM.copyTo false (n + 1) v h = copyOnce (HeapM.copyTo false n) v h := rfl

/-- One level of a copy copies the parts, one after the other. -/
theorem copyOnce_congr {C : Course Heap} {f g : Handle → HeapM Handle} (held : C.holds h)
    (each : ∀ p ∈ h.parts v, ∀ t, C.holds t → C.goes h t → f p t = g p t ∧
      C.Leads (g p) t fun _ _ => True) : copyOnce f v h = copyOnce g v h := by
  have parts := Data.mapM_congr (h.data v) held each
  simp only [copyOnce, HeapM.dataOf, HeapM.look, Bind.bind, EStateM.bind, parts]

/-- **Levels below the end of a value** do not count for its copy. -/
theorem copyTo_eq {base : Nat} {typed : Prop} {P : Handle → Prop}
    (state : Copying typed P false base h) (made : h.Made v) (ends : h.EndsIn n v) (more : n ≤ m) :
    HeapM.copyTo false m v h = HeapM.copyTo false n v h := by
  induction n generalizing h v m with
  | zero => exact ends.elim
  | succ n ih =>
    cases m with
    | zero => omega
    | succ m =>
      rw [copyTo_succ, copyTo_succ]
      refine copyOnce_congr (C := copying typed P false base) state fun p part t held gone => ?_
      have formed := state.region.formed
      have made := formed.parts v p part
      have deep : t.EndsIn n p :=
        (ends p part).congr (fun u _ => formed.parts u)
          (fun u made => parts_congr (gone.2.cell u made)) made
      refine ⟨ih held (gone.2.made made) deep (by omega), ?_⟩
      exact (yields_copyTo held (gone.2.made made) deep).leads.weaken fun _ _ _ _ _ => trivial

/-- **Copying without levels.** -/
theorem WellFormed.copy_eq (formed : h.WellFormed) (made : h.Made v) :
    HeapM.copy v h = copyOnce HeapM.copy v h := by
  have state := Copying.start formed.region.realm false
  have whole : HeapM.copy v h = HeapM.copyTo false (h.levels + 1) v h :=
    (copyTo_eq state made (formed.endsIn v) (by omega)).symm
  rw [whole, copyTo_succ]
  refine copyOnce_congr (C := copying False (fun _ => True) false h.size) state
    fun p part t held gone => ?_
  have made := gone.2.made (formed.parts v p part)
  have levels : h.levels ≤ t.levels := Nat.succ_le_succ gone.2.size_le
  have deep : t.EndsIn h.levels p := (formed.endsIn p).congr (fun u _ => formed.parts u)
    (fun u made => parts_congr (gone.2.cell u made)) (formed.parts v p part)
  have leads := (yields_copyTo held made (held.region.formed.endsIn p)).leads
  refine ⟨(copyTo_eq held made deep levels).symm,
    (leads.weaken fun _ _ _ _ _ => trivial).continued rfl ?_⟩
  exact (copying False (fun _ => True) false h.size).refl t

/-! ## Locks -/

/-- One level of locking. -/
def lockOnce (lock : Handle → HeapM Unit) (v : Handle) : HeapM Unit := do
  if ← HeapM.look (·.isLocked v) then return ()
  let parts ← HeapM.look (·.parts v)
  HeapM.lockCell v
  parts.forM lock

theorem lockTo_succ (v : Handle) (h : Heap) :
    HeapM.lockTo (n + 1) v h = lockOnce (HeapM.lockTo n) v h := rfl

/-- Heaps of one size, in which ever fewer cells are unlocked. -/
def locking : Course Heap where
  holds _ := True
  goes h h' := h'.size = h.size ∧ h'.unlockedCount ≤ h.unlockedCount
  refl _ := ⟨rfl, Nat.le_refl _⟩
  trans first second := ⟨second.1.trans first.1, Nat.le_trans second.2 first.2⟩

/-- One level of a lock locks the parts of a cell that is unlocked, with the cell locked already. -/
theorem lockOnce_congr {f g : Handle → HeapM Unit}
    (each : h.isLocked v = false → ∀ p ∈ h.parts v, ∀ t, locking.goes (h.lockedAt v) t →
      f p t = g p t ∧ locking.Leads (g p) t fun _ _ => True) : lockOnce f v h = lockOnce g v h := by
  cases locked : h.isLocked v with
  | true => simp only [lockOnce, HeapM.look, Bind.bind, EStateM.bind, locked, if_true]
  | false =>
    have parts := forM_congr (C := locking) (s := h.lockedAt v) trivial fun p part t _ gone =>
      each locked p part t gone
    simp only [lockOnce, HeapM.look, HeapM.lockCell, Bind.bind, EStateM.bind, locked,
      Bool.false_eq_true, if_false]
    exact parts

/-- Locking ends with fewer unlocked cells. -/
theorem leads_lockTo (enough : h.unlockedCount < n) :
    locking.Leads (HeapM.lockTo n v) h fun _ _ => True := by
  obtain ⟨h', run, locks⟩ := run_lockTo (v := v) enough
  exact .of_ok run trivial ⟨locks.size, locks.unlockedCount_le⟩ trivial

/-- **Levels beyond the unlocked cells** do not count for a lock. -/
theorem lockTo_eq (enough : h.unlockedCount < n) (more : n ≤ m) :
    HeapM.lockTo m v h = HeapM.lockTo n v h := by
  induction n generalizing h v m with
  | zero => omega
  | succ n ih =>
    cases m with
    | zero => omega
    | succ m =>
      rw [lockTo_succ, lockTo_succ]
      refine lockOnce_congr fun unlocked p _ t gone => ?_
      have fewer : t.unlockedCount < n := by
        have one := unlockedCount_lockedAt unlocked
        have rest := gone.2
        omega
      exact ⟨ih fewer (by omega), leads_lockTo fewer⟩

/-- **Locking without levels**, in any heap: no cell is entered twice, because it is locked on the
way in. -/
theorem lock_eq (h : Heap) (v : Handle) : HeapM.lock v h = lockOnce HeapM.lock v h := by
  have whole : HeapM.lock v h = HeapM.lockTo (h.levels + 1) v h :=
    (lockTo_eq h.unlockedCount_lt_levels (by omega)).symm
  rw [whole, lockTo_succ]
  refine lockOnce_congr fun unlocked p _ t gone => ?_
  have levels : t.levels = h.levels := congrArg (· + 1) (gone.1.trans (by simp [lockedAt]))
  refine ⟨?_, (leads_lockTo t.unlockedCount_lt_levels).continued rfl ⟨rfl, Nat.le_refl _⟩⟩
  change _ = HeapM.lockTo t.levels p t
  rw [levels]

/-! ## Stepping -/

/-- What a step does to a value with given contents, given the step for elements. -/
def stepData (up : Bool) (amount : Handle) (step : Handle → HeapM Unit) (target : Handle) :
    Data Handle → HeapM Unit
  | .leaf (.boolean _) | .leaf (.integer _ _) => do
    let delta ← HeapM.of (HeapM.inRange (HeapM.stepSign up * (← HeapM.asInteger amount).toInt))
    let next ← HeapM.of (HeapM.inRange ((← HeapM.asInteger target).toInt + delta.toInt))
    HeapM.assign target (← HeapM.newLeaf (.integer next none))
  | .leaf (.real _ _) | .leaf (.string _) => do
    let held ← HeapM.asReal target
    let next := held + (← HeapM.asReal amount) * .ofFloat (if up then 1.0 else -1.0)
    HeapM.assign target (← HeapM.newLeaf (.real next none))
  | .array s => s.items.forM step
  | d => throw (.notSteppable d.kind)

/-- One level of a step. -/
def stepOnce (up : Bool) (amount : Handle) (step : Handle → HeapM Unit) (target : Handle) :
    HeapM Unit := do
  stepData up amount step target (← HeapM.dataOf target)

theorem stepTo_succ (up : Bool) (amount target : Handle) :
    HeapM.stepTo up amount (n + 1) target = stepOnce up amount (HeapM.stepTo up amount n) target :=
  rfl

/-- Heaps in which every value keeps its parts. -/
def shaping : Course Heap where
  holds _ := True
  goes h h' := h.size ≤ h'.size ∧ ∀ v, h'.parts v = h.parts v
  refl _ := ⟨Nat.le_refl _, fun _ => rfl⟩
  trans first second := ⟨Nat.le_trans first.1 second.1, fun v => (second.2 v).trans (first.2 v)⟩

/-- A new leaf leaves the shape of what there is. -/
theorem shapes_newLeaf {l : Leaf} :
    shaping.Leads (HeapM.newLeaf l) h fun _ h' => h' = h.push ⟨.leaf l, false⟩ := by
  refine .of_ok rfl trivial ⟨by simp, fun w => ?_⟩ rfl
  by_cases made : h.Made w
  · exact parts_congr (cell_push_of_made made)
  · rw [parts_of_not_made made]
    by_cases new : w = ⟨h.size⟩
    · simp [parts, data, new, Data.parts]
    · exact parts_of_not_made fun later => (made_push.mp later).elim made new

/-- A leaf that is written over by another one. -/
theorem shapes_write {l m : Leaf} {target : Handle} (held : h.data target = .leaf l) :
    shaping.Leads (HeapM.write target (.leaf m)) h fun _ _ => True := by
  refine Leads.write trivial fun unlocked => ⟨trivial, ⟨by simp, fun w => ?_⟩, trivial⟩
  by_cases here : w = target
  · subst here
    rw [Change.parts_setCell_self (made_of_unlocked unlocked), parts, held]
    rfl
  · exact Change.parts_setCell_ne here

/-- A leaf that is assigned to, and is no Null, stays a leaf. -/
theorem shapes_assign {l : Leaf} {target source : Handle} (held : h.data target = .leaf l)
    (typed : l ≠ .null) : shaping.Leads (HeapM.assign target source) h fun _ _ => True := by
  refine HeapM.Assigner.assign.leads (I := fun t _ h => ∃ l, h.data t = .leaf l ∧
    l ≠ .null) ?_ ?_ ?_ trivial ⟨l, held, typed⟩
  · rintro t v h - ⟨l, held, typed⟩ - (null | ⟨other, -⟩)
    · rw [held] at null
      exact absurd (Data.leaf.inj null) typed
    · rw [held] at other
      cases other
  · intro t v h l m _ _ _ held _ _
    exact shapes_write held
  · rintro t v p q h u - ⟨l, held, -⟩ entered
    rw [held] at entered
    cases entered

/-- So does a leaf that is assigned to a leaf other than Null. -/
theorem shapes_assignLeaf {l m : Leaf} {target : Handle} (held : h.data target = .leaf l)
    (typed : l ≠ .null) :
    shaping.Leads (do HeapM.assign target (← HeapM.newLeaf m)) h fun _ _ => True := by
  refine shapes_newLeaf.bind fun source t _ _ pushed => ?_
  have made : h.Made target := by
    by_contra no
    have nothing : h.data target = .leaf .null := by rw [data, cell_of_not_made no]; rfl
    rw [nothing] at held
    exact typed (by injection held with same; exact same.symm)
  have held : t.data target = .leaf l := by rw [pushed, data_congr (cell_push_of_made made), held]
  exact shapes_assign held typed

/-- So does a step, at all levels. -/
theorem shapes_stepTo {up : Bool} {amount target : Handle} :
    shaping.Leads (HeapM.stepTo up amount n target) h fun _ _ => True := by
  induction n generalizing h target with
  | zero => exact .pure trivial trivial
  | succ n ih =>
    unfold HeapM.stepTo
    refine Leads.lookBind ?_
    cases held : h.data target with
    | leaf l =>
      cases l with
      | boolean _ | integer _ _ =>
        refine Leads.askBind trivial fun _ _ => Leads.ofBind trivial fun _ _ => ?_
        refine Leads.askBind trivial fun _ _ => Leads.ofBind trivial fun _ _ => ?_
        exact shapes_assignLeaf held (by simp)
      | real _ _ | string _ =>
        exact Leads.askBind trivial fun _ _ => Leads.askBind trivial fun _ _ =>
          shapes_assignLeaf held (by simp)
      | _ => exact .throw trivial
    | array s => exact Leads.forM trivial fun _ _ _ _ _ => ih
    | _ => exact .throw trivial

/-- One level of a step steps the parts, in a heap of the same shape. -/
theorem stepOnce_congr {up : Bool} {amount target : Handle} {f g : Handle → HeapM Unit}
    (each : ∀ p ∈ h.parts target, ∀ t, shaping.goes h t → f p t = g p t ∧
      shaping.Leads (g p) t fun _ _ => True) :
    stepOnce up amount f target h = stepOnce up amount g target h := by
  change stepData up amount f target (h.data target) h = stepData up amount g target
    (h.data target) h
  cases held : h.data target with
  | array s =>
    rw [parts, held] at each
    exact forM_congr (C := shaping) trivial fun p part t _ gone => each p part t gone
  | leaf l =>
    have same : stepData up amount f target (.leaf l) = stepData up amount g target (.leaf l) := by
      cases l <;> rfl
    rw [same]
  | dictionary d => rfl
  | record r => rfl

/-- **Levels below the end of a value** do not count for a step. -/
theorem stepTo_eq {up : Bool} {amount target : Handle} (ends : h.EndsIn n target) (more : n ≤ m) :
    HeapM.stepTo up amount m target h = HeapM.stepTo up amount n target h := by
  induction n generalizing h target m with
  | zero => exact ends.elim
  | succ n ih =>
    cases m with
    | zero => omega
    | succ m =>
      rw [stepTo_succ, stepTo_succ]
      refine stepOnce_congr fun p part t gone => ⟨?_, shapes_stepTo⟩
      exact ih ((ends p part).congr (S := fun _ => True) (fun _ _ _ _ => trivial)
        (fun u _ => gone.2 u) trivial) (by omega)

/-- **Stepping without levels.** -/
theorem WellFormed.step_eq (formed : h.WellFormed) (up : Bool) (target amount : Handle) :
    HeapM.step up target amount h =
      stepOnce up amount (fun p => HeapM.step up p amount) target h := by
  have whole : HeapM.step up target amount h = HeapM.stepTo up amount (h.levels + 1) target h :=
    (stepTo_eq (formed.endsIn target) (by omega)).symm
  rw [whole, stepTo_succ]
  refine stepOnce_congr fun p _ t gone => ⟨?_, shapes_stepTo.continued rfl (shaping.refl t)⟩
  have deep : t.EndsIn h.levels p :=
    (formed.endsIn p).congr (S := fun _ => True) (fun _ _ _ _ => trivial)
      (fun u _ => gone.2 u) trivial
  exact (stepTo_eq deep (Nat.succ_le_succ gone.1)).symm

end Heap

end ScriptHost
