import Mathlib.Logic.Relation
import Mathlib.Tactic.ByContra
import ScriptHost.Heap.Copy
import ScriptHost.Proofs.Course

/-!
# What one change to the heap can be

Every operation changes the heap by changes of four kinds: a stamp is taken, a cell is made, the
contents of an unlocked cell are replaced, or a value is locked with all it reaches. `Heap.Change`
says what each of them can do, with everything that the operations check or bring along: a new or
changed cell holds only cells that have been made, a replaced content never leads back to its own
cell and keeps the schema of the cell, and what becomes locked has locked parts.

Three properties of heaps are kept by every change (`Change.wellFormed`): parts are cells that have
been made, no value contains itself, and what a locked value holds is locked. A cell that is locked
stays as it is (`Change.cell_of_locked`).

Changes are made by a program that owns some of the cells. The set `P` of owned handles includes all
that have not been made yet; a change touches owned cells only (`Change.cell_of_not_owned`), and
owned cells keep holding owned cells only.
-/

set_option autoImplicit false

namespace ScriptHost

/-! ## Schemas -/

/-- What the contents of a cell can be replaced by: an unlocked Null takes on anything, all else
keeps its kind, a number its bounds, and an array its start, its element type and its policy. The
members of a structure are not replaced. -/
def Data.Keeps {ρ : Type} : Data ρ → Data ρ → Prop
  | .leaf .null, _ => True
  | .leaf (.integer _ b), d => ∃ i, d = .leaf (.integer i b)
  | .leaf (.real _ b), d => ∃ r, d = .leaf (.real r b)
  | .leaf l, d => ∃ m, d = .leaf m ∧ m.kind = l.kind
  | .array s, d =>
    ∃ t, d = .array t ∧ t.start = s.start ∧ t.element = s.element ∧ t.policy = s.policy
  | .dictionary _, d => ∃ e, d = .dictionary e
  | .record r, d => d = .record r

/-- An integer with bounds lies in them. -/
def Data.Fits {ρ : Type} (d : Data ρ) : Prop :=
  ∀ i b, d = .leaf (.integer i (some b)) → b.holds i = true

namespace Heap

/-! ## Cells that have been made -/

/-- A cell has been made for the handle. -/
def Made (h : Heap) (v : Handle) : Prop := v.index < h.size

instance (h : Heap) (v : Handle) : Decidable (h.Made v) :=
  inferInstanceAs (Decidable (v.index < h.size))

/-- Where no cell has been made there is a locked Null. -/
theorem cell_of_not_made {h : Heap} {v : Handle} (no : ¬ h.Made v) : h.cell v = absent := by
  have outside : h.cells.size ≤ v.index := Nat.le_of_not_lt no
  simp [cell, outside]

theorem parts_of_not_made {h : Heap} {v : Handle} (no : ¬ h.Made v) : h.parts v = [] := by
  simp only [parts, data, cell_of_not_made no, absent, Data.parts]

/-- What holds parts has been made. -/
theorem made_of_part {h : Heap} {v p : Handle} (part : p ∈ h.parts v) : h.Made v := by
  by_contra no
  simp [parts_of_not_made no] at part

theorem not_made_next (h : Heap) : ¬ h.Made ⟨h.size⟩ := Nat.lt_irrefl _

/-- Handles of the larger heap are the new one and the old ones. -/
theorem made_push {h : Heap} {c : Cell} {v : Handle} :
    (h.push c).Made v ↔ h.Made v ∨ v = ⟨h.size⟩ := by
  cases v with
  | mk i => simp only [Made, size_push, Handle.mk.injEq]; omega

@[simp] theorem made_setCell {h : Heap} {c : Cell} {v w : Handle} :
    (h.setCell v c).Made w ↔ h.Made w := by simp [Made]

/-- A new cell leaves the others as they are. -/
theorem cell_push_of_made {h : Heap} {c : Cell} {v : Handle} (made : h.Made v) :
    (h.push c).cell v = h.cell v :=
  cell_push_old h c made

theorem data_congr {h h' : Heap} {v : Handle} (same : h'.cell v = h.cell v) :
    h'.data v = h.data v := by
  simp only [data, same]

theorem parts_congr {h h' : Heap} {v : Handle} (same : h'.cell v = h.cell v) :
    h'.parts v = h.parts v := by
  simp only [parts, data, same]

theorem isLocked_congr {h h' : Heap} {v : Handle} (same : h'.cell v = h.cell v) :
    h'.isLocked v = h.isLocked v := by
  simp only [isLocked, same]

/-- A cell is its contents and its lock. -/
theorem cell_ext {h h' : Heap} {v : Handle} (data : h'.data v = h.data v)
    (lock : h'.isLocked v = h.isLocked v) : h'.cell v = h.cell v := by
  simp only [Heap.data, isLocked] at data lock
  cases e : h.cell v with
  | mk d l =>
    cases e' : h'.cell v with
    | mk d' l' => simp_all

/-- All cells of one heap stand in the other as they are. -/
structure Extends (h h' : Heap) : Prop where
  size_le : h.size ≤ h'.size
  cell : ∀ v, h.Made v → h'.cell v = h.cell v

theorem Extends.refl (h : Heap) : h.Extends h := ⟨Nat.le_refl _, fun _ _ => rfl⟩

theorem Extends.made {h h' : Heap} (ext : h.Extends h') {v : Handle} (made : h.Made v) :
    h'.Made v :=
  Nat.lt_of_lt_of_le made ext.size_le

theorem Extends.trans {h h' h'' : Heap} (first : h.Extends h') (second : h'.Extends h'') :
    h.Extends h'' where
  size_le := Nat.le_trans first.size_le second.size_le
  cell v made := (second.cell v (first.made made)).trans (first.cell v made)

/-- A new cell extends the heap. -/
theorem extends_push (h : Heap) (c : Cell) : h.Extends (h.push c) where
  size_le := by simp
  cell _ made := cell_push_of_made made

/-! ## Reachability -/

theorem Reaches.trans {h : Heap} {u v w : Handle} (first : h.Reaches u v) (second : h.Reaches v w) :
    h.Reaches u w := by
  induction first with
  | refl => exact second
  | step part _ ih => exact .step part (ih second)

/-- Reachability is the reflexive and transitive closure of being a part. -/
theorem reaches_iff {h : Heap} {v w : Handle} :
    h.Reaches v w ↔ Relation.ReflTransGen (fun u p => p ∈ h.parts u) v w := by
  constructor
  · intro reach
    induction reach with
    | refl => exact .refl
    | step part _ ih => exact .head part ih
  · intro path
    induction path with
    | refl => exact .refl _
    | tail _ part ih => exact ih.trans (.step part (.refl _))

/-- What holds of a value and passes on to parts holds of all it reaches. -/
theorem Reaches.closed {h : Heap} {S : Handle → Prop} {v w : Handle} (reach : h.Reaches v w)
    (inherited : ∀ u, S u → ∀ p ∈ h.parts u, S p) (base : S v) : S w := by
  induction reach with
  | refl => exact base
  | step part _ ih => exact ih (inherited _ base _ part)

/-- Heaps that agree on a set which is closed under parts have the same paths in it. -/
theorem Reaches.transfer {h h' : Heap} {S : Handle → Prop} {v w : Handle} (reach : h.Reaches v w)
    (inherited : ∀ u, S u → ∀ p ∈ h.parts u, S p) (same : ∀ u, S u → h'.parts u = h.parts u)
    (base : S v) : h'.Reaches v w := by
  induction reach with
  | refl => exact .refl _
  | step part _ ih => exact .step (by rw [same _ base]; exact part) (ih (inherited _ base _ part))

/-! ## Well-formed heaps -/

/-- What holds of the heap at every moment of a run. -/
structure WellFormed (h : Heap) : Prop where
  /-- Parts are cells that have been made. -/
  parts : ∀ v, ∀ p ∈ h.parts v, h.Made p
  /-- No value contains itself. -/
  acyclic : ∀ v, ∀ p ∈ h.parts v, ¬ h.Reaches p v
  /-- What a locked value holds is locked. -/
  sealed : ∀ v, h.isLocked v = true → ∀ p ∈ h.parts v, h.isLocked p = true
  /-- Integers lie in their bounds. -/
  fits : ∀ v, (h.data v).Fits

/-- What is reached from a cell that has been made has been made. -/
theorem WellFormed.made_of_reaches {h : Heap} (formed : h.WellFormed) {v w : Handle}
    (reach : h.Reaches v w) (made : h.Made v) : h.Made w :=
  reach.closed (fun u _ => formed.parts u) made

/-- A lock holds for all that is below it. -/
theorem WellFormed.locked_of_reaches {h : Heap} (formed : h.WellFormed) {v w : Handle}
    (reach : h.Reaches v w) (locked : h.isLocked v = true) : h.isLocked w = true :=
  reach.closed formed.sealed locked

/-- A path of a larger heap from an old cell is a path of the smaller one. -/
theorem WellFormed.reaches_of_extends {h h' : Heap} (formed : h.WellFormed) (ext : h.Extends h')
    {v w : Handle} (reach : h'.Reaches v w) (made : h.Made v) : h.Reaches v w := by
  have same : ∀ u, h.Made u → h.parts u = h'.parts u :=
    fun u made => (parts_congr (ext.cell u made)).symm
  exact reach.transfer (fun u made p part =>
    formed.parts u p (by rw [same u made]; exact part)) same made

theorem not_made_empty (v : Handle) : ¬ empty.Made v := Nat.not_lt_zero _

theorem empty_wellFormed : empty.WellFormed where
  parts v _ part := absurd (made_of_part part) (not_made_empty v)
  acyclic v _ part := absurd (made_of_part part) (not_made_empty v)
  sealed v _ _ part := absurd (made_of_part part) (not_made_empty v)
  fits v i b e := by
    rw [data, cell_of_not_made (not_made_empty v)] at e
    cases e

/-! ## Changes -/

/-- What locking does: some owned cells become locked, and then every locked cell has locked
parts. -/
structure Locking (P : Handle → Prop) (h h' : Heap) : Prop where
  size : h'.size = h.size
  data : ∀ v, h'.data v = h.data v
  keeps : ∀ v, h.isLocked v = true → h'.isLocked v = true
  owned : ∀ v, h.isLocked v = false → h'.isLocked v = true → P v
  sealed : ∀ v, h'.isLocked v = true → ∀ p ∈ h'.parts v, h'.isLocked p = true

/-- One change to the heap by a program that owns `P`. -/
inductive Change (P : Handle → Prop) (h : Heap) : Heap → Prop where
  | stamp : Change P h { h with stamps := h.stamps + 1 }
  | push (c : Cell) (parts : ∀ p ∈ c.data.parts, h.Made p ∧ P p)
      (sealed : c.locked = true → ∀ p ∈ c.data.parts, h.isLocked p = true) (fits : c.data.Fits) :
        Change P h (h.push c)
  | write (v : Handle) (d : Data Handle) (made : h.Made v) (owned : P v)
      (unlocked : h.isLocked v = false)
      (parts : ∀ p ∈ d.parts, h.Made p ∧ P p ∧ ¬ h.Reaches p v) (keeps : (h.data v).Keeps d)
      (fits : d.Fits) :
      Change P h (h.setCell v ⟨d, false⟩)
  | lock (h' : Heap) (locking : Locking P h h') : Change P h h'

/-- Changes one after the other. -/
abbrev Changes (P : Handle → Prop) : Heap → Heap → Prop := Relation.ReflTransGen (Change P)

/-- A heap, and a set of handles owned in it: it includes what has not been made, and owned cells
hold owned cells. -/
structure Region (h : Heap) (P : Handle → Prop) : Prop where
  formed : h.WellFormed
  fresh : ∀ v, ¬ h.Made v → P v
  closed : ∀ v, P v → ∀ p ∈ h.parts v, P p

/-- All cells of a well-formed heap. -/
theorem WellFormed.region {h : Heap} (formed : h.WellFormed) : h.Region fun _ => True :=
  ⟨formed, fun _ _ => trivial, fun _ _ _ _ => trivial⟩

namespace Change

variable {P : Handle → Prop} {h h' : Heap} {v w : Handle}

theorem size_le (change : Change P h h') : h.size ≤ h'.size := by
  cases change with
  | stamp => exact Nat.le_refl _
  | push c => simp
  | write v d => simp
  | lock h' locking => exact Nat.le_of_eq locking.size.symm

theorem made (change : Change P h h') (made : h.Made v) : h'.Made v :=
  Nat.lt_of_lt_of_le made change.size_le

/-- **Locked cells.** A cell that is locked stays as it is. -/
theorem cell_of_locked (change : Change P h h') (made : h.Made v) (locked : h.isLocked v = true) :
    h'.cell v = h.cell v := by
  cases change with
  | stamp => rfl
  | push c => exact cell_push_of_made made
  | write w d _ _ unlocked =>
    have other : v ≠ w := fun e => by simp [e, unlocked] at locked
    exact cell_setCell_ne h _ other
  | lock h' locking => exact cell_ext (locking.data v) ((locking.keeps v locked).trans locked.symm)

/-- **Foreign cells.** A cell that is not owned stays as it is. -/
theorem cell_of_not_owned (change : Change P h h') (fresh : ∀ v, ¬ h.Made v → P v)
    (foreign : ¬ P v) : h'.cell v = h.cell v := by
  have made : h.Made v := by
    by_contra no
    exact foreign (fresh v no)
  cases change with
  | stamp => rfl
  | push c => exact cell_push_of_made made
  | write w d _ owned =>
    have other : v ≠ w := fun e => foreign (e ▸ owned)
    exact cell_setCell_ne h _ other
  | lock h' locking =>
    refine cell_ext (locking.data v) ?_
    cases before : h.isLocked v with
    | true => exact locking.keeps v before
    | false =>
      by_contra after
      exact foreign (locking.owned v before (by simpa using after))

/-! ## What every change keeps -/

/-- **A new cell** keeps a heap well formed if its parts are there, locked if it is, and its
contents fit. -/
theorem wellFormed_push {c : Cell} (formed : h.WellFormed) (parts : ∀ p ∈ c.data.parts, h.Made p)
    (sealed : c.locked = true → ∀ p ∈ c.data.parts, h.isLocked p = true) (fits : c.data.Fits) :
    (h.push c).WellFormed := by
  have ext := extends_push h c
  -- The cases are the same for all four properties: the new cell, and an old cell with old parts.
  have split : ∀ v, ∀ p ∈ (h.push c).parts v, (v = ⟨h.size⟩ ∧ p ∈ c.data.parts) ∨
      (h.Made v ∧ p ∈ h.parts v) := by
    intro v p part
    obtain made | rfl := made_push.mp (made_of_part part)
    · exact .inr ⟨made, by rwa [parts_congr (ext.cell v made)] at part⟩
    · exact .inl ⟨rfl, by simpa [Heap.parts, data] using part⟩
  have old : ∀ v, ∀ p ∈ (h.push c).parts v, h.Made p := by
    intro v p part
    obtain ⟨-, part⟩ | ⟨-, part⟩ := split v p part
    · exact parts p part
    · exact formed.parts v p part
  refine ⟨fun v p part => ext.made (old v p part), ?_, ?_, ?_⟩
  · intro v p part reach
    have before := formed.reaches_of_extends ext reach (old v p part)
    obtain ⟨rfl, -⟩ | ⟨-, part⟩ := split v p part
    · exact not_made_next h (formed.made_of_reaches before (old _ p part))
    · exact formed.acyclic v p part before
  · intro v locked p part
    rw [isLocked_congr (ext.cell p (old v p part))]
    obtain ⟨rfl, inside⟩ | ⟨made, inside⟩ := split v p part
    · exact sealed (by simpa [isLocked] using locked) p inside
    · exact formed.sealed v (by rwa [isLocked_congr (ext.cell v made)] at locked) p inside
  · intro v
    by_cases made : h.Made v
    · rw [data_congr (ext.cell v made)]
      exact formed.fits v
    · by_cases new : v = ⟨h.size⟩
      · subst new
        simpa [data] using fits
      · intro i b e
        have no : ¬ (h.push c).Made v := fun m => (made_push.mp m).elim made new
        rw [data, cell_of_not_made no] at e
        cases e

theorem parts_setCell_self {c : Cell} (made : h.Made v) :
    (h.setCell v c).parts v = c.data.parts := by
  simp only [Heap.parts, data, cell_setCell_self h v c made]

theorem parts_setCell_ne {c : Cell} (other : w ≠ v) : (h.setCell v c).parts w = h.parts w :=
  parts_congr (cell_setCell_ne h c other)

/-- A path to the changed cell can be taken as far as it first comes there, and so far nothing has
changed. -/
theorem reaches_of_setCell {c : Cell} {u : Handle} (reach : (h.setCell v c).Reaches w u)
    (there : u = v) : h.Reaches w v := by
  induction reach with
  | refl => exact there ▸ .refl _
  | @step w p _ part _ ih =>
    by_cases here : w = v
    · exact here ▸ .refl _
    · exact .step (by rwa [parts_setCell_ne here] at part) (ih there)

/-- A path after the change is a path from before, or goes through the changed cell. -/
theorem reaches_setCell_split {c : Cell} {u : Handle} (reach : (h.setCell v c).Reaches u w) :
    h.Reaches u w ∨ ((h.setCell v c).Reaches u v ∧ (h.setCell v c).Reaches v w) := by
  induction reach with
  | refl => exact .inl (.refl _)
  | @step u p _ part rest ih =>
    by_cases here : u = v
    · subst here
      exact .inr ⟨.refl _, .step part rest⟩
    · obtain before | ⟨there, onward⟩ := ih
      · exact .inl (.step (by rwa [parts_setCell_ne here] at part) before)
      · exact .inr ⟨.step part there, onward⟩

/-- New contents close no cycle unless one of their parts leads back. -/
theorem acyclic_setCell {c : Cell} (formed : h.WellFormed) (made : h.Made v)
    (away : ∀ p ∈ c.data.parts, ¬ h.Reaches p v) :
    ∀ w, ∀ p ∈ (h.setCell v c).parts w, ¬ (h.setCell v c).Reaches p w := by
  -- No path leads from the new contents back to their own cell; a cycle elsewhere would have to
  -- pass through it.
  have atCell : ∀ p ∈ (h.setCell v c).parts v, ¬ (h.setCell v c).Reaches p v := by
    intro p part reach
    rw [parts_setCell_self made] at part
    exact away p part (reaches_of_setCell reach rfl)
  intro w p part reach
  by_cases here : w = v
  · subst here
    exact atCell p part reach
  · obtain before | ⟨there, onward⟩ := reaches_setCell_split reach
    · exact formed.acyclic w p (by rwa [parts_setCell_ne here] at part) before
    · cases onward with
      | refl => exact here rfl
      | @step _ q _ first rest => exact atCell q first (rest.trans (.step part there))

/-- **A write** to an unlocked cell keeps a heap well formed, if no new part leads back to the
cell. -/
theorem wellFormed_write {d : Data Handle} (formed : h.WellFormed) (made : h.Made v)
    (unlocked : h.isLocked v = false) (parts : ∀ p ∈ d.parts, h.Made p)
    (away : ∀ p ∈ d.parts, ¬ h.Reaches p v) (fits : d.Fits) :
    (h.setCell v ⟨d, false⟩).WellFormed := by
  refine ⟨?_, acyclic_setCell formed made away, ?_, ?_⟩
  · intro w p part
    rw [made_setCell]
    by_cases here : w = v
    · subst here
      rw [parts_setCell_self made] at part
      exact parts p part
    · rw [parts_setCell_ne here] at part
      exact formed.parts w p part
  · intro w locked p part
    have here : w ≠ v := fun e => by
      subst e
      simp [isLocked, cell_setCell_self h w _ made] at locked
    rw [isLocked_congr (cell_setCell_ne h _ here)] at locked
    rw [parts_setCell_ne here] at part
    have partLocked := formed.sealed w locked p part
    have other : p ≠ v := fun e => by simp [e, unlocked] at partLocked
    rw [isLocked_congr (cell_setCell_ne h _ other), partLocked]
  · intro w
    by_cases here : w = v
    · subst here
      simpa only [data, cell_setCell_self h w _ made] using fits
    · rw [data_congr (cell_setCell_ne h _ here)]
      exact formed.fits w

/-- **A lock** keeps a heap well formed: it is put on all that is below, and nothing else
changes. -/
theorem wellFormed_lock (formed : h.WellFormed) (locking : Locking P h h') : h'.WellFormed := by
  have same : ∀ v, h'.parts v = h.parts v := fun v => by simp only [Heap.parts, locking.data]
  have back : ∀ {v w}, h'.Reaches v w → h.Reaches v w := fun {v w} reach =>
    reach.transfer (S := fun _ => True) (fun _ _ _ _ => trivial) (fun u _ => (same u).symm) trivial
  refine ⟨fun v p part => ?_, fun v p part reach => ?_, locking.sealed, fun v => ?_⟩
  · have made := formed.parts v p (by rwa [same] at part)
    simpa only [Made, locking.size] using made
  · exact formed.acyclic v p (by rwa [same] at part) (back reach)
  · rw [locking.data]
    exact formed.fits v

/-- **Well-formed heaps stay so.** -/
theorem wellFormed (change : Change P h h') (formed : h.WellFormed) : h'.WellFormed := by
  cases change with
  | stamp => exact ⟨formed.parts, fun v p part reach => formed.acyclic v p part
      (reach.transfer (S := fun _ => True) (fun _ _ _ _ => trivial) (fun _ _ => rfl) trivial),
      formed.sealed, formed.fits⟩
  | push c parts sealed fits =>
    exact wellFormed_push formed (fun p part => (parts p part).1) sealed fits
  | write v d made _ unlocked parts _ fits =>
    exact wellFormed_write formed made unlocked (fun p part => (parts p part).1)
      (fun p part => (parts p part).2.2) fits
  | lock h' locking => exact wellFormed_lock formed locking

/-- **Owned cells hold owned cells**, also after a change. -/
theorem closed (change : Change P h h') (region : h.Region P) :
    ∀ v, P v → ∀ p ∈ h'.parts v, P p := by
  intro w owned p part
  cases change with
  | stamp => exact region.closed w owned p part
  | push c parts =>
    obtain made | rfl := made_push.mp (made_of_part part)
    · rw [parts_congr (cell_push_of_made made)] at part
      exact region.closed w owned p part
    · exact (parts p (by simpa [Heap.parts, data] using part)).2
  | write v d made _ _ parts =>
    by_cases here : w = v
    · subst here
      rw [parts_setCell_self made] at part
      exact (parts p part).2.1
    · rw [parts_setCell_ne here] at part
      exact region.closed w owned p part
  | lock h' locking =>
    simp only [Heap.parts, locking.data] at part
    exact region.closed w owned p part

/-- Changes stay in the region that they start in. -/
theorem region (change : Change P h h') (region : h.Region P) : h'.Region P where
  formed := change.wellFormed region.formed
  fresh v no := region.fresh v fun made => no (change.made made)
  closed := change.closed region

end Change

end Heap

end ScriptHost
