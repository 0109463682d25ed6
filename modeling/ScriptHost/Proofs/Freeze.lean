import ScriptHost.Proofs.Host.Run

/-!
# Deep freeze

A value that is locked in a state that a host can get into stays as it is, for ever and all the way
down: whatever happens to the host afterwards, the value and everything that can be reached from it
keep their contents and their locks, so that its image stays the same (`Host.locked_frozen`).

Two facts carry this. No change touches a locked cell (`Heap.Changes.cell_of_locked`), and whatever
a locked cell holds is locked as well, in every well-formed heap (`Heap.WellFormed.sealed`).
-/

set_option autoImplicit false

namespace ScriptHost

namespace Heap

variable {P : Handle → Prop} {h h' : Heap} {v w : Handle}

/-- What a locked value reaches stays as it is. -/
theorem Changes.cell_of_reaches (changes : Changes P h h') (formed : h.WellFormed) (made : h.Made v)
    (locked : h.isLocked v = true) (reach : h.Reaches v w) : h'.cell w = h.cell w :=
  changes.cell_of_locked (formed.made_of_reaches reach made) (formed.locked_of_reaches reach locked)

/-- A locked value reaches the same values as before. -/
theorem Changes.reaches_iff (changes : Changes P h h') (formed : h.WellFormed) (made : h.Made v)
    (locked : h.isLocked v = true) : h'.Reaches v w ↔ h.Reaches v w := by
  have same : ∀ u, h.Reaches v u → h'.parts u = h.parts u := fun u reach =>
    parts_congr (changes.cell_of_reaches formed made locked reach)
  have inherited : ∀ u, h.Reaches v u → ∀ p ∈ h.parts u, h.Reaches v p := fun u reach p part =>
    reach.trans (.step part (.refl p))
  constructor
  · intro reach
    refine reach.transfer (S := fun u => h.Reaches v u) ?_
      (fun u reach => (same u reach).symm) (.refl v)
    intro u reach p part
    exact inherited u reach p (by rwa [← same u reach])
  · intro reach
    exact reach.transfer inherited same (.refl v)

/-- The image of a locked value stays the same. -/
theorem Changes.image_of_locked (changes : Changes P h h') (region : h.Region P) (made : h.Made v)
    (locked : h.isLocked v = true) : h'.image v = h.image v := by
  have formed := region.formed
  refine image_congr formed (changes.region region).formed
    (S := fun w => h.Reaches v w) ?_ ?_ (.refl v)
  · intro u reach p part
    exact reach.trans (.step part (.refl p))
  · intro u reach
    exact changes.cell_of_reaches formed made locked reach

end Heap

namespace Host

/-- **Deep freeze.** A value that is locked in a reachable state reaches the same values in every
later state; all of these are locked and have their old contents, which their images show in full;
and the image is what it was. -/
theorem locked_frozen {s t : Host} {v : Handle} (reachable : s.Reachable)
    (later : Run (fun _ => True) s t) (made : s.heap.Made v) (locked : s.heap.isLocked v = true) :
    (∀ w, t.heap.Reaches v w ↔ s.heap.Reaches v w) ∧
    (∀ w, s.heap.Reaches v w → t.heap.isLocked w = true ∧ t.heap.data w = s.heap.data w ∧
      s.heap.image w = .node true ((s.heap.data w).map s.heap.image)) ∧
    t.heap.image v = s.heap.image v := by
  have region := reachable.owning.region
  have formed := region.formed
  obtain ⟨_, changes⟩ := later.owning reachable.owning
  refine ⟨fun w => changes.reaches_iff formed made locked, fun w reach => ?_,
    changes.image_of_locked region made locked⟩
  have same := changes.cell_of_reaches formed made locked reach
  have sealed := formed.locked_of_reaches reach locked
  refine ⟨?_, Heap.data_congr same, ?_⟩
  · rw [Heap.isLocked_congr same, sealed]
  · rw [formed.image_eq w, sealed]

/-- A locked list of lists in a register, and a program that tries to change it and what it
holds. -/
theorem locked_frozen_list :
    let list := Expr.array 1 [.array 1 [.literal (.integer 5)] .refuse] .refuse
    let attempts := [Expr.attempt (.binary .add (.held "list") (.literal (.integer 7))),
      .attempt (.binary .assign (.unary (.elementAt 1) (.unary (.elementAt 1) (.held "list")))
        (.literal (.integer 8)))]
    let s := Session.after (.bare .default) [.hold "list" (.unary .locked list)]
    s.heap.isLocked ⟨2⟩ = true ∧ (Session.after s attempts).heap.image ⟨2⟩ = s.heap.image ⟨2⟩ := by
  intro list attempts s
  have reachable : s.Reachable := reachable_after ⟨.default, true, [], none⟩ _
  have made : s.heap.Made ⟨2⟩ := by decide +kernel
  have locked : s.heap.isLocked ⟨2⟩ = true := by decide +kernel
  exact ⟨locked, (locked_frozen reachable (run_after s attempts) made locked).2.2⟩

end Host

end ScriptHost
