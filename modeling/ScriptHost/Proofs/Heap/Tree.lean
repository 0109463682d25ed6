import ScriptHost.Proofs.Heap.Assigned

/-!
# Trees in the heap

The cells that a value reaches form a tree if none of them is held twice by them (`Heap.IsTree`).
Different parts of a tree reach no cell in common, so an assignment to one of them leaves the others
as they are. A `Heap.Forest` is a list of trees apart from each other, like the parts of a tree; it
stays a forest when something is assigned to one of its trees (`Forest.assigned`), because the cells
that are made for it are held in one place each.

What a value looks like, and how it lies in the heap, is a matter of the cells it reaches:
`Heap.SameFrom` says that these stand in another heap as they are.
-/

set_option autoImplicit false

namespace ScriptHost.Heap

variable {h h' : Heap} {t x v w : Handle} {S : Handle → Prop}

/-! ## Paths by their last step -/

/-- A path ends where it begins, or in a part of something on it. -/
theorem Reaches.last (reach : h.Reaches v w) : w = v ∨ ∃ u, h.Reaches v u ∧ w ∈ h.parts u := by
  rcases (reaches_iff.mp reach).cases_tail with rfl | ⟨u, path, part⟩
  · exact .inl rfl
  · exact .inr ⟨u, reaches_iff.mpr path, part⟩

/-! ## Trees -/

/-- The cells in `S` hold each cell in one place at most. -/
structure HoldsOnce (h : Heap) (S : Handle → Prop) : Prop where
  holder : ∀ u w p, S u → S w → p ∈ h.parts u → p ∈ h.parts w → u = w
  place : ∀ u, S u → (h.parts u).Nodup

/-- What is held once within some cells is held once within fewer. -/
theorem HoldsOnce.mono {T : Handle → Prop} (once : h.HoldsOnce S) (fewer : ∀ w, T w → S w) :
    h.HoldsOnce T where
  holder u w p first second := once.holder u w p (fewer u first) (fewer w second)
  place u inside := once.place u (fewer u inside)

/-- The cells that a value reaches form a tree: none of them is held twice. -/
def IsTree (h : Heap) (t : Handle) : Prop := h.HoldsOnce (h.Reaches t)

/-- Two values reach no cell in common. -/
def Apart (h : Heap) (v w : Handle) : Prop := ∀ u, h.Reaches v u → ¬ h.Reaches w u

theorem Apart.symm (apart : h.Apart v w) : h.Apart w v := fun u second first => apart u first second

instance (h : Heap) : Std.Symm h.Apart := ⟨fun _ _ => Apart.symm⟩

theorem Apart.ne (apart : h.Apart v w) : v ≠ w := by
  rintro rfl
  exact apart v (.refl v) (.refl v)

/-- What two values reach is apart as they are. -/
theorem Apart.mono {v' w' : Handle} (apart : h.Apart v w) (first : h.Reaches v v')
    (second : h.Reaches w w') : h.Apart v' w' :=
  fun u left right => apart u (first.trans left) (second.trans right)

/-- The parts of a tree are trees. -/
theorem IsTree.part (tree : h.IsTree t) (part : v ∈ h.parts t) : h.IsTree v :=
  HoldsOnce.mono tree fun _ reach => .step part reach

/-- Parts that reach one cell are one: going up from the cell, both come to the same holder all the
way. -/
theorem IsTree.part_unique (formed : h.WellFormed) (tree : h.IsTree t) (first : v ∈ h.parts t)
    (second : w ∈ h.parts t) {u : Handle} (left : h.Reaches v u) (right : h.Reaches w u) :
    v = w := by
  have reached : ∀ {p q : Handle}, p ∈ h.parts t → h.Reaches p q → h.Reaches t q :=
    fun part reach => .step part reach
  have away : ∀ {p q : Handle}, p ∈ h.parts t → q ∈ h.parts t → ∀ u, h.Reaches p u →
      q ∉ h.parts u := by
    intro p q inside other u reach part
    have root : u = t := tree.holder u t q (reached inside reach) (.refl t) part other
    exact formed.acyclic t p inside (root ▸ reach)
  induction reaches_iff.mp left with
  | refl =>
    rcases right.last with same | ⟨u, reach, part⟩
    · exact same
    · exact absurd part (away second first u reach)
  | @tail u u' path part ih =>
    have reach : h.Reaches v u := reaches_iff.mpr path
    rcases right.last with rfl | ⟨x, other, part'⟩
    · exact absurd part (away first second u reach)
    · have same : u = x :=
        tree.holder u x u' (reached first reach) (reached second other) part part'
      exact ih reach (same ▸ other)

/-- Two parts of a tree have no cell in common. -/
theorem IsTree.parts_apart (formed : h.WellFormed) (tree : h.IsTree t) (first : v ∈ h.parts t)
    (second : w ∈ h.parts t) (other : v ≠ w) : h.Apart v w :=
  fun _ left right => other (tree.part_unique formed first second left right)

/-! ## What depends on the cells that are reached -/

/-- All that the value reaches stands in the other heap as it is. -/
def SameFrom (h h' : Heap) (v : Handle) : Prop := ∀ u, h.Reaches v u → h'.cell u = h.cell u

namespace SameFrom

theorem parts (same : h.SameFrom h' v) (reach : h.Reaches v w) : h'.parts w = h.parts w :=
  parts_congr (same w reach)

theorem inherited (h : Heap) (v : Handle) : ∀ u, h.Reaches v u → ∀ p ∈ h.parts u, h.Reaches v p :=
  fun _ reach _ part => reach.trans (.step part (.refl _))

/-- The same cells are reached. -/
theorem reaches_iff (same : h.SameFrom h' v) : h'.Reaches v w ↔ h.Reaches v w := by
  constructor
  · intro reach
    have inside : ∀ u, h.Reaches v u → ∀ p ∈ h'.parts u, h.Reaches v p := by
      intro u reached p part
      rw [same.parts reached] at part
      exact inherited h v u reached p part
    exact reach.transfer inside (fun u reached => (same.parts reached).symm) (.refl v)
  · intro reach
    exact reach.transfer (inherited h v) (fun u reached => same.parts reached) (.refl v)

/-- The image is the same. -/
theorem image (same : h.SameFrom h' v) (formed : h.WellFormed) (formed' : h'.WellFormed) :
    h'.image v = h.image v :=
  image_congr formed formed' (inherited h v) same (.refl v)

/-- The depth is the same. -/
theorem endsIn {n : Nat} (same : h.SameFrom h' v) (ends : h.EndsIn n v) : h'.EndsIn n v :=
  ends.congr (inherited h v) (fun _ reach => same.parts reach) (.refl v)

/-- What was a tree still is one. -/
theorem isTree (same : h.SameFrom h' v) (tree : h.IsTree v) : h'.IsTree v where
  holder u w p first second left right := by
    rw [same.reaches_iff] at first second
    rw [same.parts first] at left
    rw [same.parts second] at right
    exact tree.holder u w p first second left right
  place u reach := by
    rw [same.reaches_iff] at reach
    rw [same.parts reach]
    exact tree.place u reach

/-- What was apart still is. -/
theorem apart (left : h.SameFrom h' v) (right : h.SameFrom h' w) (apart : h.Apart v w) :
    h'.Apart v w := by
  intro u first second
  rw [left.reaches_iff] at first
  rw [right.reaches_iff] at second
  exact apart u first second

end SameFrom

/-! ## Assignments to trees -/

namespace Assigned

/-- What reaches no cell of the set stays as it is. -/
theorem sameFrom (assigned : Assigned h S h') (formed : h.WellFormed) (made : h.Made x)
    (outside : ∀ u, h.Reaches x u → ¬ S u) : h.SameFrom h' x := by
  intro u reach
  rcases assigned.cell u (formed.made_of_reaches reach made) with same | replaced
  · exact same
  · exact absurd replaced.inside (outside u reach)

/-- From a set that is closed under parts one comes to the set and to what is new. -/
theorem reaches (assigned : Assigned h S h') (closed : ∀ u, S u → ∀ p ∈ h.parts u, S p)
    (inside : S v) (reach : h'.Reaches v w) : S w ∨ ¬ h.Made w := by
  refine reach.closed (S := fun w => S w ∨ ¬ h.Made w) (fun u within p part => ?_) (.inl inside)
  by_cases made : h.Made u
  · rcases assigned.cell u made with same | replaced
    · rw [parts_congr same] at part
      exact .inl (closed u (within.resolve_right (not_not_intro made)) p part)
    · exact .inr (replaced.apart p part)
  · exact .inr (assigned.apart u made p part)

/-- What a cell holds of the old is what it held: a cell with an old part has not been replaced. -/
theorem parts_of_old (assigned : Assigned h S h') {u p : Handle} (part : p ∈ h'.parts u)
    (old : h.Made p) : h.Made u ∧ h'.parts u = h.parts u := by
  by_cases made : h.Made u
  · rcases assigned.cell u made with same | replaced
    · exact ⟨made, parts_congr same⟩
    · exact absurd old (replaced.apart p part)
  · exact absurd old (assigned.apart u made p part)

/-- Cells that hold each cell in one place still do, with all that is new. -/
theorem holdsOnce (assigned : Assigned h S h') (once : h.HoldsOnce S) :
    h'.HoldsOnce fun w => S w ∨ ¬ h.Made w where
  holder u w p first second left right := by
    -- an old part is held by what held it before; a new one is held once, whoever holds it
    by_cases old : h.Made p
    · obtain ⟨made, same⟩ := assigned.parts_of_old left old
      obtain ⟨made', same'⟩ := assigned.parts_of_old right old
      rw [same] at left
      rw [same'] at right
      exact once.holder u w p (first.resolve_right (not_not_intro made))
        (second.resolve_right (not_not_intro made')) left right
    · exact (assigned.once p old).holder u w left right
  place u inside := by
    rw [List.nodup_iff_count_le_one]
    intro p
    by_cases old : h.Made p
    · by_cases part : p ∈ h'.parts u
      · obtain ⟨made, same⟩ := assigned.parts_of_old part old
        rw [same]
        exact List.nodup_iff_count_le_one.mp
          (once.place u (inside.resolve_right (not_not_intro made))) p
      · rw [List.count_eq_zero.mpr part]
        exact Nat.zero_le _
    · exact (assigned.once p old).place u

/-- **A tree stays a tree** when something is assigned to it. -/
theorem isTree (assigned : Assigned h (h.Reaches t) h') (tree : h.IsTree t) : h'.IsTree t :=
  (assigned.holdsOnce tree).mono fun _ reach =>
    assigned.reaches (SameFrom.inherited h t) (.refl t) reach

/-- What was apart from the tree stays apart from it. -/
theorem staysApart (assigned : Assigned h (h.Reaches t) h') (formed : h.WellFormed)
    (made : h.Made x) (apart : h.Apart t x) : h'.Apart t x := by
  intro u left right
  have same := assigned.sameFrom formed made fun w reach inside => apart w inside reach
  rw [same.reaches_iff] at right
  rcases assigned.reaches (SameFrom.inherited h t) (.refl t) left with inside | new
  · exact apart u inside right
  · exact new (formed.made_of_reaches right made)

end Assigned

/-- An assignment leaves a well-formed heap, and writes to what its target reaches. -/
theorem endState_assigner {f : Handle → Handle → HeapM Unit} (assigner : HeapM.Assigner f)
    (formed : h.WellFormed) (made : h.Made t) (given : h.Made x) :
    (endState (f t x) h).WellFormed ∧ Assigned h (h.Reaches t) (endState (f t x) h) := by
  have region : h.Realm False fun _ => True := formed.region.realm
  have course : (Heap.course False fun _ => True).Leads (f t x) h fun _ _ => True :=
    leads_assigner assigner region ⟨made, trivial⟩ ⟨given, trivial⟩
  have entire : h.Entire (h.Reaches t) :=
    fun u reach _ p part => SameFrom.inherited h t u reach p part
  have writes : (assigning h (h.Reaches t)).Leads (f t x) h fun _ _ => True :=
    assigning_assigner assigner entire (.start formed.parts _) fun _ => .refl t
  exact ⟨course.atEnd.1.formed, writes.atEnd.1⟩

/-! ## Forests -/

/-- Trees apart from each other. -/
structure Forest (h : Heap) (ts : List Handle) : Prop where
  made : ∀ t ∈ ts, h.Made t
  tree : ∀ t ∈ ts, h.IsTree t
  apart : ts.Pairwise h.Apart

namespace Forest

variable {ts : List Handle}

/-- Different parts of a tree are a forest. -/
theorem ofNodup (formed : h.WellFormed) (tree : h.IsTree t) (inside : ∀ x ∈ ts, x ∈ h.parts t)
    (distinct : ts.Nodup) : h.Forest ts where
  made x mem := formed.parts t x (inside x mem)
  tree x mem := tree.part (inside x mem)
  apart := distinct.imp_of_mem fun first second other =>
    tree.parts_apart formed (inside _ first) (inside _ second) other

/-- The parts of a tree make up a forest. -/
theorem ofParts (formed : h.WellFormed) (tree : h.IsTree t) : h.Forest (h.parts t) :=
  ofNodup formed tree (fun _ part => part) (tree.place t (.refl t))

/-- No tree is in a forest twice. -/
theorem nodup (forest : h.Forest ts) : ts.Nodup := forest.apart.imp Apart.ne

/-- A forest with one tree less. -/
theorem tail (forest : h.Forest (t :: ts)) : h.Forest ts where
  made x mem := forest.made x (List.mem_cons_of_mem _ mem)
  tree x mem := forest.tree x (List.mem_cons_of_mem _ mem)
  apart := (List.pairwise_cons.mp forest.apart).2

/-- Different trees of a forest are apart. -/
theorem apart_of_ne (forest : h.Forest ts) (first : t ∈ ts) (second : x ∈ ts) (other : t ≠ x) :
    h.Apart t x :=
  forest.apart.forall first second other

/-- **A forest stays a forest** when something is assigned to one of its trees, and its other trees
stay as they are. -/
theorem assigned (forest : h.Forest ts) (formed : h.WellFormed) (mem : t ∈ ts)
    (assigned : Assigned h (h.Reaches t) h') :
    h'.Forest ts ∧ ∀ x ∈ ts, x ≠ t → h.SameFrom h' x := by
  have others : ∀ x ∈ ts, x ≠ t → h.SameFrom h' x := fun x inside other =>
    assigned.sameFrom formed (forest.made x inside) fun u reach within =>
      forest.apart_of_ne mem inside other.symm u within reach
  refine ⟨⟨fun x inside => assigned.made (forest.made x inside), fun x inside => ?_, ?_⟩, others⟩
  · by_cases same : x = t
    · exact same ▸ assigned.isTree (forest.tree t mem)
    · exact (others x inside same).isTree (forest.tree x inside)
  · refine forest.apart.imp_of_mem fun {a b} first second apart => ?_
    by_cases left : a = t
    · subst left
      exact assigned.staysApart formed (forest.made b second) apart
    · by_cases right : b = t
      · subst right
        exact (assigned.staysApart formed (forest.made a first) apart.symm).symm
      · exact (others a first left).apart (others b second right) apart

end Forest

end ScriptHost.Heap
