import Mathlib
import ScriptHost.Heap.Assign
import ScriptHost.Proofs.Heap.Change

/-!
# The search decides reachability

`Heap.reaches` looks at each cell once and is given as many rounds as there are parts in all cells
together, and one more. That is enough on every heap, also one with cycles: a round either drops a
handle that has been seen, or takes a cell out of those not seen yet and puts its parts on the list.
The measure is the length of the list and the number of parts of the cells not seen (`unseenParts`),
and every round lowers it (`Round.lowers`).

In which order the list is taken makes no difference to any of this, so `Heap.Round` is one round in
whatever order. What has been seen is closed under parts, but for what is left (`Sweeps`), so a
search can only end with the right answer (`Sweeps.answer`).
-/

set_option autoImplicit false

namespace ScriptHost

namespace Heap

variable {h : Heap} {v target : Handle}

/-- The number of parts of the cells that have not been seen. -/
def unseenParts (h : Heap) (seen : List Handle) : Nat :=
  ∑ i ∈ Finset.range h.size, if (⟨i⟩ : Handle) ∈ seen then 0 else (h.parts ⟨i⟩).length

theorem unseenParts_nil (h : Heap) : h.unseenParts [] = h.partCount := by
  have sum : ∀ (l : List Cell) (n : Nat),
      l.foldl (fun n c => n + c.data.parts.length) n =
        n + (l.map fun c => c.data.parts.length).sum := by
    intro l
    induction l with
    | nil => simp
    | cons c l ih =>
      intro n
      simp only [List.foldl_cons, ih, List.map_cons, List.sum_cons]
      omega
  have cells : (List.range h.cells.size).map (fun i => (h.parts ⟨i⟩).length) =
      h.cells.toList.map fun c => c.data.parts.length := by
    apply List.ext_getElem (by simp)
    intro i bound _
    have inside : i < h.cells.size := by simpa using bound
    simp [parts, data, cell, inside]
  rw [partCount, ← Array.foldl_toList, sum, Nat.zero_add, ← cells]
  simp only [unseenParts, List.not_mem_nil, if_false, size]
  rw [Finset.sum_eq_multiset_sum, Finset.range_val, Multiset.range, Multiset.map_coe,
    Multiset.sum_coe]

/-- Seeing a cell takes its parts out of the count. -/
theorem unseenParts_cons {seen : List Handle} {v : Handle} (unseen : v ∉ seen) :
    h.unseenParts (v :: seen) + (h.parts v).length = h.unseenParts seen := by
  have same : ∀ i, (⟨i⟩ : Handle) ≠ v →
      (if (⟨i⟩ : Handle) ∈ v :: seen then 0 else (h.parts ⟨i⟩).length) =
      if (⟨i⟩ : Handle) ∈ seen then 0 else (h.parts ⟨i⟩).length := by
    intro i other
    simp [other]
  by_cases made : h.Made v
  · have inside : v.index ∈ Finset.range h.size := Finset.mem_range.mpr made
    rw [unseenParts, unseenParts, ← Finset.add_sum_erase _ _ inside,
      ← Finset.add_sum_erase (Finset.range h.size) _ inside]
    have others : ∀ i ∈ (Finset.range h.size).erase v.index, (⟨i⟩ : Handle) ≠ v :=
      fun i mem e => (Finset.mem_erase.mp mem).1 (by rw [← e])
    have self : (⟨v.index⟩ : Handle) = v := rfl
    rw [Finset.sum_congr rfl fun i mem => same i (others i mem), self,
      if_pos (List.mem_cons_self ..), if_neg unseen]
    omega
  · have others : ∀ i ∈ Finset.range h.size, (⟨i⟩ : Handle) ≠ v :=
      fun i mem e => made (by rw [← e]; exact Finset.mem_range.mp mem)
    rw [unseenParts, unseenParts, Finset.sum_congr rfl fun i mem => same i (others i mem),
      parts_of_not_made made]
    rfl

/-! ## Rounds in any order -/

/-- How far a search has come: the cells that it has seen, and the handles that are left to look
at. -/
structure Search where
  seen : List Handle
  pending : List Handle

/-- One round takes any of the handles that are left, other than the target. It is dropped if its
cell has been seen, and otherwise its parts are left to look at with the rest, in any order. -/
inductive Round (h : Heap) (target : Handle) (s : Search) : Search → Prop where
  | drop {v : Handle} {rest : List Handle} (taken : s.pending.Perm (v :: rest)) (other : v ≠ target)
    (old : v ∈ s.seen) : Round h target s ⟨s.seen, rest⟩
  | enter {v : Handle} {rest next : List Handle} (taken : s.pending.Perm (v :: rest))
    (other : v ≠ target) (new : v ∉ s.seen)
    (added : next.Perm (h.parts v ++ rest)) : Round h target s ⟨v :: s.seen, next⟩

/-- A search is over when the target can be taken, or when nothing is left. -/
inductive Search.Answers (target : Handle) (s : Search) : Bool → Prop where
  | found (left : target ∈ s.pending) : Answers target s true
  | missed (none : s.pending = []) : Answers target s false

/-- **Every round lowers** what is left and the parts not seen. -/
theorem Round.lowers {s t : Search} (round : h.Round target s t) :
    t.pending.length + h.unseenParts t.seen < s.pending.length + h.unseenParts s.seen := by
  cases round with
  | drop taken _ _ =>
    have length := taken.length_eq
    simp only [List.length_cons] at length ⊢
    omega
  | enter taken _ new added =>
    have length := taken.length_eq
    have more := added.length_eq
    have count := unseenParts_cons (h := h) new
    simp only [List.length_cons, List.length_append] at length more ⊢
    omega

/-- What holds of a search from `v` at every moment. -/
structure Sweeps (h : Heap) (v target : Handle) (s : Search) : Prop where
  /-- All that the search has come to is reached. -/
  reached : ∀ u, u ∈ s.seen ∨ u ∈ s.pending → h.Reaches v u
  /-- What has been seen is closed under parts, but for what is left. -/
  covered : ∀ u ∈ s.seen, ∀ p ∈ h.parts u, p ∈ s.seen ∨ p ∈ s.pending
  start : v ∈ s.seen ∨ v ∈ s.pending
  absent : target ∉ s.seen

/-- A search starts with nothing seen, and with one value to look at. -/
theorem sweeps_start (h : Heap) (v target : Handle) : h.Sweeps v target ⟨[], [v]⟩ where
  reached u known := by
    obtain rfl : u = v := by simpa using known
    exact .refl _
  covered := by simp
  start := by simp
  absent := by simp

/-- **One round** keeps to it. -/
theorem Round.sweeps {s t : Search} (round : h.Round target s t) (held : h.Sweeps v target s) :
    h.Sweeps v target t := by
  cases round with
  | @drop w rest taken other old =>
    have known : ∀ u, u ∈ s.seen ∨ u ∈ s.pending → u ∈ s.seen ∨ u ∈ rest := by
      intro u known
      rw [taken.mem_iff, List.mem_cons] at known
      rcases known with inside | rfl | waiting
      · exact .inl inside
      · exact .inl old
      · exact .inr waiting
    refine ⟨?_, fun u mem p part => known p (held.covered u mem p part),
      known v held.start, held.absent⟩
    rintro u (inside | waiting)
    · exact held.reached u (.inl inside)
    · exact held.reached u (.inr (taken.mem_iff.mpr (List.mem_cons_of_mem w waiting)))
  | @enter w rest next taken other new added =>
    have here : h.Reaches v w := held.reached w (.inr (taken.mem_iff.mpr (List.mem_cons_self ..)))
    have known : ∀ u, u ∈ s.seen ∨ u ∈ s.pending → u ∈ w :: s.seen ∨ u ∈ next := by
      intro u known
      rw [taken.mem_iff, List.mem_cons] at known
      rw [added.mem_iff, List.mem_append, List.mem_cons]
      rcases known with inside | rfl | waiting
      · exact .inl (.inr inside)
      · exact .inl (.inl rfl)
      · exact .inr (.inr waiting)
    refine ⟨?_, ?_, known v held.start, ?_⟩
    · intro u come
      rw [added.mem_iff, List.mem_append, List.mem_cons] at come
      rcases come with (rfl | inside) | part | waiting
      · exact here
      · exact held.reached u (.inl inside)
      · exact here.trans (.step part (.refl _))
      · exact held.reached u (.inr (taken.mem_iff.mpr (List.mem_cons_of_mem w waiting)))
    · intro u mem p part
      rcases List.mem_cons.mp mem with rfl | mem
      · exact .inr (added.mem_iff.mpr (List.mem_append_left _ part))
      · exact known p (held.covered u mem p part)
    · intro mem
      rcases List.mem_cons.mp mem with rfl | mem
      · exact other rfl
      · exact held.absent mem

/-- Cells that are closed under parts reach nothing else. -/
theorem not_reaches_of_closed {seen : List Handle} (closed : ∀ u ∈ seen, ∀ p ∈ h.parts u, p ∈ seen)
    (absent : target ∉ seen) {u : Handle} (inside : u ∈ seen) : ¬ h.Reaches u target :=
  fun reach => absent (reach.closed (S := (· ∈ seen)) closed inside)

/-- **The answer is right.** -/
theorem Sweeps.answer {s : Search} {b : Bool} (held : h.Sweeps v target s)
    (answers : s.Answers target b) : b = true ↔ h.Reaches v target := by
  cases answers with
  | found left => exact iff_of_true rfl (held.reached target (.inr left))
  | missed none =>
    have closed : ∀ u ∈ s.seen, ∀ p ∈ h.parts u, p ∈ s.seen := by simpa [none] using held.covered
    have start : v ∈ s.seen := by simpa [none] using held.start
    exact iff_of_false (by decide) (not_reaches_of_closed closed held.absent start)

/-! ## The search -/

/-- **The search goes by rounds.** With one for every handle that is left and every part not seen,
it ends with the right answer. -/
theorem Sweeps.search_iff {rounds : Nat} {s : Search} (held : h.Sweeps v target s)
    (enough : s.pending.length + h.unseenParts s.seen ≤ rounds) :
    h.search target rounds s.seen s.pending = true ↔ h.Reaches v target := by
  induction rounds generalizing s with
  | zero =>
    have none : s.pending = [] := List.length_eq_zero_iff.mp (by omega)
    exact held.answer (.missed none)
  | succ rounds ih =>
    obtain ⟨seen, pending⟩ := s
    cases pending with
    | nil => exact held.answer (.missed rfl)
    | cons u rest =>
      by_cases here : u = target
      · have answer := held.answer (.found (by simp [here]))
        simpa only [search, here, if_true] using answer
      · have next : ∀ t, h.Round target ⟨seen, u :: rest⟩ t →
            (h.search target rounds t.seen t.pending = true ↔ h.Reaches v target) := by
          intro t round
          have lower := round.lowers
          exact ih (round.sweeps held) (by omega)
        simp only [search, here, if_false]
        split
        next old => exact next ⟨seen, rest⟩ (.drop (.refl _) here (List.contains_iff_mem.mp old))
        next new =>
          have unseen : u ∉ seen := fun mem => new (List.contains_iff_mem.mpr mem)
          exact next ⟨u :: seen, h.parts u ++ rest⟩ (.enter (.refl _) here unseen (.refl _))

/-- The search answers whether there is a path, given as many rounds as there are parts and one
more, or any more. -/
theorem search_eq_true_iff {rounds : Nat} {v : Handle} (enough : h.partCount + 1 ≤ rounds) :
    h.search target rounds [] [v] = true ↔ h.Reaches v target := by
  apply (sweeps_start h v target).search_iff
  rw [unseenParts_nil, List.length_singleton]
  omega

/-- **The search decides reachability.** -/
theorem reaches_eq_true_iff {v : Handle} : h.reaches v target = true ↔ h.Reaches v target :=
  search_eq_true_iff (Nat.le_refl _)

end Heap

/-! ## Steps that refuse -/

namespace HeapM

variable {α β : Type} {h h' : Heap} {target : Handle} {m : HeapM α}

theorem bind_of_ok {a : α} (run : m h = .ok a h') (next : α → HeapM β) :
    (m >>= next) h = next a h' := by
  simp only [Bind.bind, EStateM.bind, run]

theorem bind_of_error {f : Fault} (run : m h = .error f h') (next : α → HeapM β) :
    (m >>= next) h = .error f h' := by
  simp only [Bind.bind, EStateM.bind, run]

theorem writable_of_unlocked (unlocked : h.isLocked target = false) :
    writable target h = .ok (h.data target) h := by
  simp [writable, ask, unlocked]

/-- A locked value is not to be written to. -/
theorem writable_of_locked (locked : h.isLocked target = true) :
    writable target h = .error .valueLocked h := by
  simp only [writable, ask, locked, if_true]

/-- An unlocked one takes new contents, and stays unlocked. -/
theorem write_of_unlocked (unlocked : h.isLocked target = false) (d : Data Handle) :
    write target d h = .ok () (h.setCell target ⟨d, false⟩) := by
  simp [write, unlocked]

/-- What comes after a value has been found to be unlocked, in an operation that succeeds. -/
theorem ok_of_writable {k : Data Handle → HeapM β} {b : β}
    (run : (writable target >>= k) h = .ok b h') :
    h.isLocked target = false ∧ k (h.data target) h = .ok b h' := by
  cases locked : h.isLocked target with
  | true =>
    rw [bind_of_error (writable_of_locked locked)] at run
    cases run
  | false => exact ⟨rfl, (bind_of_ok (writable_of_unlocked locked) k).symm.trans run⟩

/-- A value that leads back is refused. -/
theorem rejectCycle_of_reaches {value : Handle} (reach : h.Reaches value target) :
    rejectCycle target value h = .error .containsItself h := by
  have found := Heap.reaches_eq_true_iff.mpr reach
  simp only [rejectCycle, ask, found, if_true]

theorem rejectCycle_of_not_reaches {value : Handle} (away : ¬ h.Reaches value target) :
    rejectCycle target value h = .ok () h := by
  have missed : h.reaches value target = false := by simpa using mt Heap.reaches_eq_true_iff.mp away
  simp [rejectCycle, ask, missed]

/-- Values are searched for the target one after the other, up to the first that contains it. -/
theorem rejectCycles_cases (h : Heap) (target : Handle) (items : List Handle) :
    ((∀ w ∈ items, ¬ h.Reaches w target) ∧ items.forM (rejectCycle target) h = .ok () h) ∨
      ((∃ w ∈ items, h.Reaches w target) ∧
        items.forM (rejectCycle target) h = .error .containsItself h) := by
  induction items with
  | nil => exact .inl ⟨by simp, rfl⟩
  | cons v items ih =>
    by_cases reach : h.Reaches v target
    · exact .inr ⟨⟨v, by simp, reach⟩, bind_of_error (rejectCycle_of_reaches reach) _⟩
    · have rest : (v :: items).forM (rejectCycle target) h = items.forM (rejectCycle target) h :=
        bind_of_ok (rejectCycle_of_not_reaches reach) _
      rw [rest]
      obtain ⟨others, run⟩ | ⟨⟨w, mem, found⟩, run⟩ := ih
      · exact .inl ⟨by simpa [reach] using others, run⟩
      · exact .inr ⟨⟨w, by simp [mem], found⟩, run⟩

/-- Whether an operation succeeds. -/
def succeeds (m : HeapM α) (h : Heap) : Bool :=
  match m h with
  | .ok _ _ => true
  | .error _ _ => false

theorem succeeds_of_ok {a : α} (run : m h = .ok a h') : m.succeeds h = true := by
  simp only [succeeds, run]

/-- New contents for an array, if there are any, are put into one that is not locked. -/
theorem store_of_ok {x : Except Fault (Sequence Handle)} {t : Sequence Handle} (run : x = .ok t)
    (unlocked : h.isLocked target = false) :
    (do write target (.array (← of x))) h = .ok () (h.setCell target ⟨.array t, false⟩) := by
  subst run
  exact (bind_of_ok rfl _).trans (write_of_unlocked unlocked _)

/-! ## Assignments to a leaf -/

/-- An assignment begins with one level, whatever becomes of the parts. -/
theorem exists_assignOnce (h : Heap) (target source : Handle) :
    ∃ part, assign target source h = assignOnce part target source h := by
  have opened : assign target source h = assignWithin h.size (h.size + 1) target source h := rfl
  exact ⟨_, opened.trans (by rw [assignWithin])⟩

/-- A leaf other than Null takes what the source becomes in its kind. -/
theorem run_assignLeaf {source : Handle} {l m : Leaf} (held : h.cell target = ⟨.leaf l, false⟩)
    (typed : l ≠ .null) (other : target ≠ source)
    (converts : convertInto l (h.data source) = .ok m) :
    assign target source h = .ok () (h.setCell target ⟨.leaf m, false⟩) := by
  have unlocked : h.isLocked target = false := by rw [Heap.isLocked, held]
  have contents : h.data target = .leaf l := by rw [Heap.data, held]
  have given : dataOf source h = .ok (h.data source) h := rfl
  have converted : of (convertInto l (h.data source)) h = .ok m h := by
    simp only [of, ask, converts]
  obtain ⟨part, opened⟩ := exists_assignOnce h target source
  rw [opened, assignOnce, bind_of_ok (writable_of_unlocked unlocked), contents, if_neg other,
    bind_of_ok given]
  cases l with
  | null => exact absurd rfl typed
  | _ => exact (bind_of_ok converted _).trans (write_of_unlocked unlocked _)

end HeapM

end ScriptHost
