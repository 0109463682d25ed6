import Mathlib
import ScriptHost.Proofs.Heap.Change

/-!
# How deep a value goes

The walks over a value go down one level at a time and are given `Heap.levels` of them. `Heap.EndsIn
n v` says that every way down from `v` ends within `n` levels. In a well-formed heap that holds of
every value with the levels that the walks are given (`WellFormed.endsIn`): the cells strictly below
a part are fewer than those below the whole, and there are no more of them than cells.

It follows that an image is not cut off: it does not depend on the number of levels, and the image
of a value is its contents with the images of its parts (`WellFormed.image_eq`). Heaps that agree on
all a value reaches have the same image of it (`image_congr`).
-/

set_option autoImplicit false

namespace ScriptHost.Heap

variable {h h' : Heap} {v : Handle} {n m : Nat}

/-- Every way down from a value ends within so many levels. -/
def EndsIn (h : Heap) : Nat → Handle → Prop
  | 0, _ => False
  | n + 1, v => ∀ p ∈ h.parts v, h.EndsIn n p

theorem EndsIn.mono (ends : h.EndsIn n v) (more : n ≤ m) : h.EndsIn m v := by
  induction n generalizing v m with
  | zero => exact ends.elim
  | succ n ih =>
    cases m with
    | zero => omega
    | succ m => exact fun p part => ih (ends p part) (by omega)

/-- Depth is a matter of the cells that are reached. -/
theorem EndsIn.congr {S : Handle → Prop} (inherited : ∀ u, S u → ∀ p ∈ h.parts u, S p)
    (same : ∀ u, S u → h'.parts u = h.parts u) (base : S v) (ends : h.EndsIn n v) :
    h'.EndsIn n v := by
  induction n generalizing v with
  | zero => exact ends
  | succ n ih =>
    intro p part
    rw [same v base] at part
    exact ih (inherited v base p part) (ends p part)

/-! ## Enough levels -/

open Classical in
/-- The cells strictly below a value. -/
noncomputable def below (h : Heap) (v : Handle) : Finset Nat :=
  (Finset.range h.size).filter fun i => ∃ p ∈ h.parts v, h.Reaches p ⟨i⟩

theorem mem_below {i : Nat} : i ∈ h.below v ↔ i < h.size ∧ ∃ p ∈ h.parts v, h.Reaches p ⟨i⟩ := by
  simp [below]

/-- Fewer cells are below a part than below the whole: the part itself is one less. -/
theorem WellFormed.below_part (formed : h.WellFormed) {p : Handle} (part : p ∈ h.parts v) :
    h.below p ⊂ h.below v := by
  refine (Finset.ssubset_iff_of_subset ?_).mpr ⟨p.index, ?_, ?_⟩
  · intro i mem
    obtain ⟨inside, q, deeper, reach⟩ := mem_below.mp mem
    exact mem_below.mpr ⟨inside, p, part, .step deeper reach⟩
  · exact mem_below.mpr ⟨formed.parts v p part, p, part, .refl _⟩
  · intro mem
    obtain ⟨-, q, deeper, reach⟩ := mem_below.mp mem
    exact formed.acyclic p q deeper reach

theorem WellFormed.endsIn_card (formed : h.WellFormed) (v : Handle) :
    h.EndsIn ((h.below v).card + 1) v := by
  induction size : (h.below v).card using Nat.strong_induction_on generalizing v with
  | _ n ih =>
    intro p part
    have fewer : (h.below p).card < n := size ▸ Finset.card_lt_card (formed.below_part part)
    exact (ih _ fewer p rfl).mono fewer

/-- **Enough levels.** The walks are given more levels than any value is deep. -/
theorem WellFormed.endsIn (formed : h.WellFormed) (v : Handle) : h.EndsIn h.levels v := by
  refine (formed.endsIn_card v).mono ?_
  have cells : h.below v ⊆ Finset.range h.size :=
    fun i mem => Finset.mem_range.mpr (mem_below.mp mem).1
  have most : (h.below v).card ≤ h.size := by simpa using Finset.card_le_card cells
  simp only [levels]
  omega

/-! ## Images -/

theorem imageTo_eq (ends : h.EndsIn n v) (more : n ≤ m) : h.imageTo m v = h.imageTo n v := by
  induction n generalizing v m with
  | zero => exact ends.elim
  | succ n ih =>
    cases m with
    | zero => omega
    | succ m =>
      have parts := Data.map_congr (d := h.data v) fun p part =>
        ih (m := m) (ends p part) (by omega)
      simp only [imageTo, parts]

theorem imageTo_congr {S : Handle → Prop} (inherited : ∀ u, S u → ∀ p ∈ h.parts u, S p)
    (same : ∀ u, S u → h'.cell u = h.cell u) (base : S v) : h'.imageTo n v = h.imageTo n v := by
  induction n generalizing v with
  | zero => rfl
  | succ n ih =>
    have parts := Data.map_congr (d := h.data v) fun p part => ih (inherited v base p part)
    simp only [imageTo, isLocked_congr (same v base), data_congr (same v base), parts]

/-- The image of a value has the images of its parts. -/
theorem WellFormed.image_eq (formed : h.WellFormed) (v : Handle) :
    h.image v = .node (h.isLocked v) ((h.data v).map h.image) := by
  have whole : h.image v = h.imageTo (h.levels + 1) v :=
    (imageTo_eq (formed.endsIn v) (by omega)).symm
  rw [whole]
  rfl

/-- Heaps that agree on a value and all it reaches have the same image of it. -/
theorem image_congr (formed : h.WellFormed) (formed' : h'.WellFormed) {S : Handle → Prop}
    (inherited : ∀ u, S u → ∀ p ∈ h.parts u, S p) (same : ∀ u, S u → h'.cell u = h.cell u)
    (base : S v) : h'.image v = h.image v := by
  have before := imageTo_eq (formed.endsIn v) (Nat.le_max_left h.levels h'.levels)
  have after := imageTo_eq (formed'.endsIn v) (Nat.le_max_right h.levels h'.levels)
  rw [image, image, ← before, ← after]
  exact imageTo_congr inherited same base

end ScriptHost.Heap
