import ScriptHost.Proofs.Heap.Homogeneous

/-!
# Changes one after the other, and the steps that make them

What holds of one change holds of all changes of a run. `Heap.course typed P` is the course of heaps
in which the owned cells are `P`: they stay well formed, and homogeneous if they are to be, and go
over into one another by changes to owned cells. The primitive steps keep to it; `HeapM.Sound` is
the form in which an operation is said to do so, for every set of owned cells, in all heaps and in
the homogeneous ones.
-/

set_option autoImplicit false

namespace ScriptHost

namespace Heap

namespace Changes

variable {P : Handle → Prop} {h h' : Heap} {v : Handle}

/-- Changes one after the other stay in the region that they start in. -/
theorem region (changes : Changes P h h') (region : h.Region P) : h'.Region P := by
  induction changes with
  | refl => exact region
  | tail _ change ih => exact change.region ih

theorem size_le (changes : Changes P h h') : h.size ≤ h'.size := by
  induction changes with
  | refl => exact Nat.le_refl _
  | tail _ change ih => exact Nat.le_trans ih change.size_le

theorem made (changes : Changes P h h') (made : h.Made v) : h'.Made v :=
  Nat.lt_of_lt_of_le made changes.size_le

/-- **Locked cells** stay as they are through all changes. -/
theorem cell_of_locked (changes : Changes P h h') (made : h.Made v) (locked : h.isLocked v = true) :
    h'.cell v = h.cell v := by
  induction changes with
  | refl => rfl
  | tail earlier change ih =>
    have same := change.cell_of_locked (Changes.made earlier made) (by rwa [isLocked_congr ih])
    exact same.trans ih

/-- **Foreign cells** stay as they are through all changes. -/
theorem cell_of_not_owned (changes : Changes P h h') (fresh : ∀ v, ¬ h.Made v → P v)
    (foreign : ¬ P v) : h'.cell v = h.cell v := by
  induction changes with
  | refl => rfl
  | tail earlier change ih =>
    exact (change.cell_of_not_owned (fun v no => fresh v fun made => no (Changes.made earlier made))
      foreign).trans ih

/-- **Schemas** are kept by all changes, of every cell that is there. -/
theorem keeps (changes : Changes P h h') (made : h.Made v) : (h.data v).Keeps (h'.data v) := by
  induction changes with
  | refl => exact .refl _
  | tail earlier change ih => exact ih.trans (change.keeps (Changes.made earlier made))

/-- Kinds other than Null last. -/
theorem kind (changes : Changes P h h') (other : h.kind v ≠ .null) : h'.kind v = h.kind v :=
  (changes.keeps (made_of_kind other)).kind other

/-- An array goes on to admit what it admits. -/
theorem admits {target : Handle} {s : Sequence Handle} (changes : Changes P h h')
    (array : h.data target = .array s) (admitted : h.Admits target v) : h'.Admits target v := by
  have made : h.Made target := made_of_array array
  have kept := changes.keeps made
  rw [array] at kept
  rw [Heap.Admits, array] at admitted
  rw [Heap.Admits, Data.Admits, kept.elementKind?]
  exact admitted.lasts changes.kind

end Changes

/-- A cell that has been made and is owned. -/
def Owned (P : Handle → Prop) (h : Heap) (v : Handle) : Prop := h.Made v ∧ P v

/-- What is owned stays owned. -/
theorem Owned.changes {P : Handle → Prop} {h h' : Heap} {v : Handle} (owned : h.Owned P v)
    (changes : Changes P h h') : h'.Owned P v :=
  ⟨changes.made owned.1, owned.2⟩

/-- What an owned value holds is owned. -/
theorem Region.part {P : Handle → Prop} {h : Heap} (region : h.Region P) {v p : Handle}
    (owned : h.Owned P v) (part : p ∈ h.parts v) : h.Owned P p :=
  ⟨region.formed.parts v p part, region.closed v owned.2 p part⟩

/-- The parts of some contents are owned cells. -/
def OwnedParts (P : Handle → Prop) (h : Heap) (d : Data Handle) : Prop := ∀ p ∈ d.parts, h.Owned P p

theorem Region.parts {P : Handle → Prop} {h : Heap} (region : h.Region P) {v : Handle}
    (owned : h.Owned P v) : h.OwnedParts P (h.data v) :=
  fun _ part => region.part owned part

/-- Heaps with owned cells `P`, homogeneous if they are to be, which change by changes to owned
cells. -/
def course (typed : Prop) (P : Handle → Prop) : Course Heap where
  holds h := h.Realm typed P
  goes := Changes P
  refl _ := .refl
  trans first second := first.trans second

end Heap

/-- An operation on given values, for every set of owned cells with these values among them: it
changes owned cells only, what it yields is owned, and a homogeneous heap stays so. -/
def HeapM.Sound {α : Type} (m : HeapM α) (given : List Handle) (yields : α → List Handle) : Prop :=
  ∀ ⦃typed : Prop⦄ (P : Handle → Prop) (h : Heap), h.Realm typed P → (∀ v ∈ given, h.Owned P v) →
    (Heap.course typed P).Leads m h fun a h' => ∀ v ∈ yields a, h'.Owned P v

namespace Heap

open Course

variable {typed : Prop} {P : Handle → Prop} {h : Heap} {v : Handle}

/-! ## Primitive steps -/

/-- A new callable takes a stamp and makes no value. -/
theorem leads_stamp {name : String} {params : List Param} {body : Body} (region : h.Realm typed P) :
    (course typed P).Leads (HeapM.newCallable name params body) h fun _ _ => True :=
  have change : Change P h { h with stamps := h.stamps + 1 } := .stamp
  Leads.of_ok rfl (change.realm region fun _ _ => .inl rfl) (.single change) trivial

theorem data_push_ne {c : Cell} (other : v ≠ ⟨h.size⟩) : (h.push c).data v = h.data v := by
  by_cases made : h.Made v
  · exact data_congr (cell_push_of_made made)
  · have no : ¬ (h.push c).Made v := fun there => (made_push.mp there).elim made other
    rw [data, data, cell_of_not_made made, cell_of_not_made no]

/-- One more cell keeps a realm if its contents are homogeneous. -/
theorem Realm.push {c : Cell} (region : h.Realm typed P) (change : Change P h (h.push c))
    (admits : typed → c.data.Homogeneous h.kind) : (h.push c).Realm typed P := by
  refine change.realm region fun on w => ?_
  by_cases new : w = ⟨h.size⟩
  · subst new
    exact .inr (by simpa only [data, cell_push_new] using admits on)
  · exact .inl (data_push_ne new)

/-- Making a cell yields its handle, the next one. -/
theorem leads_alloc {c : Cell} (region : h.Realm typed P) (parts : h.OwnedParts P c.data)
    (sealed : c.locked = true → ∀ p ∈ c.data.parts, h.isLocked p = true) (fits : c.data.Fits)
    (admits : typed → c.data.Homogeneous h.kind) :
    (course typed P).Leads (HeapM.alloc c) h fun v h' => h'.Owned P v ∧ v = ⟨h.size⟩ ∧
      h' = h.push c :=
  have change : Change P h (h.push c) := .push c parts sealed fits
  Leads.of_ok rfl (region.push change admits) (.single change)
    ⟨⟨made_push.mpr (.inr rfl), region.fresh _ (not_made_next h)⟩, rfl, rfl⟩

/-- A new cell is owned if what it holds is. -/
theorem leads_new {d : Data Handle} (region : h.Realm typed P) (parts : h.OwnedParts P d)
    (fits : d.Fits) (admits : typed → d.Homogeneous h.kind) :
    (course typed P).Leads (HeapM.new d) h fun v h' => h'.Owned P v ∧ v = ⟨h.size⟩ ∧
      h' = h.push ⟨d, false⟩ :=
  leads_alloc region parts (fun locked => Bool.noConfusion locked) fits admits

/-- A leaf that is no integer outside of its bounds. -/
theorem leads_allocLeaf {l : Leaf} {locked : Bool} (region : h.Realm typed P)
    (fits : (Data.leaf l : Data Handle).Fits) :
    (course typed P).Leads (HeapM.alloc ⟨.leaf l, locked⟩) h fun v h' =>
      h'.Owned P v ∧ v = ⟨h.size⟩ ∧ h' = h.push ⟨.leaf l, locked⟩ :=
  leads_alloc region (fun _ part => absurd part (List.not_mem_nil)) (fun _ _ part =>
    absurd part (List.not_mem_nil)) fits fun _ => Data.homogeneous_of_untyped rfl

theorem leads_newLeaf {l : Leaf} (region : h.Realm typed P)
    (fits : (Data.leaf l : Data Handle).Fits) :
    (course typed P).Leads (HeapM.newLeaf l) h fun v h' => h'.Owned P v ∧ v = ⟨h.size⟩ ∧
      h' = h.push ⟨.leaf l, false⟩ :=
  leads_allocLeaf region fits

theorem fits_null : (Data.leaf .null : Data Handle).Fits := fun _ _ e => by cases e

/-- Replacing the contents of an owned cell, by homogeneous contents that do not lead back to it. -/
theorem leads_write {d : Data Handle} (region : h.Realm typed P) (owned : h.Owned P v)
    (parts : ∀ p ∈ d.parts, h.Owned P p ∧ ¬ h.Reaches p v) (keeps : (h.data v).Keeps d)
    (fits : d.Fits) (admits : typed → d.Homogeneous h.kind) :
    (course typed P).Leads (HeapM.write v d) h fun _ _ => True := by
  refine Leads.write region fun unlocked => ?_
  have change : Change P h (h.setCell v ⟨d, false⟩) :=
    .write v d owned.1 owned.2 unlocked (fun p part => ⟨(parts p part).1.1, (parts p part).1.2,
      (parts p part).2⟩) keeps fits
  refine ⟨change.realm region fun on w => ?_, .single change, trivial⟩
  by_cases here : w = v
  · subst here
    exact .inr (by simpa only [data, cell_setCell_self h w _ owned.1] using admits on)
  · exact .inl (data_congr (cell_setCell_ne h _ here))

/-- A leaf holds nothing, so that only its schema matters. -/
theorem leads_writeLeaf {l : Leaf} (region : h.Realm typed P) (owned : h.Owned P v)
    (keeps : (h.data v).Keeps (.leaf l)) (fits : (Data.leaf l : Data Handle).Fits) :
    (course typed P).Leads (HeapM.write v (.leaf l)) h fun _ _ => True :=
  leads_write region owned (fun _ part => absurd part List.not_mem_nil) keeps fits fun _ =>
    Data.homogeneous_of_untyped rfl

/-- Replacing the contents of an owned cell by contents that hold, beside what it held before, only
values that do not lead back to it. -/
theorem leads_replace {d : Data Handle} (region : h.Realm typed P) (owned : h.Owned P v)
    (parts : ∀ p ∈ d.parts, p ∈ h.parts v ∨ (h.Owned P p ∧ ¬ h.Reaches p v))
    (keeps : (h.data v).Keeps d) (fits : d.Fits) (admits : typed → d.Homogeneous h.kind) :
    (course typed P).Leads (HeapM.write v d) h fun _ _ => True := by
  refine leads_write region owned (fun p part => ?_) keeps fits admits
  obtain old | new := parts p part
  · exact ⟨region.part owned old, region.formed.acyclic v p old⟩
  · exact new

/-! ## New cells as results -/

theorem sound_allocLeaf {l : Leaf} {locked : Bool} (fits : (Data.leaf l : Data Handle).Fits) :
    HeapM.Sound (HeapM.alloc ⟨.leaf l, locked⟩) [] fun v => [v] := by
  intro typed P h region _
  exact (leads_allocLeaf region fits).weaken fun _ _ _ _ result => by simpa using result.1

/-- A new scalar is made of nothing. -/
theorem sound_newLeaf {l : Leaf} (fits : (Data.leaf l : Data Handle).Fits) :
    HeapM.Sound (HeapM.newLeaf l) [] fun v => [v] :=
  sound_allocLeaf fits

theorem sound_newNull : HeapM.Sound HeapM.newNull [] fun v => [v] := sound_allocLeaf fits_null

/-- New contents are a value made of their parts, if no kind is asked of them. -/
theorem sound_new {d : Data Handle} (fits : d.Fits) (untyped : d.elementKind? = none) :
    HeapM.Sound (HeapM.new d) d.parts fun v => [v] := by
  intro typed P h region given
  refine (leads_new region given fits fun _ => ?_).weaken fun _ _ _ _ result => by
    simpa using result.1
  exact Data.homogeneous_of_untyped untyped

end Heap

end ScriptHost
