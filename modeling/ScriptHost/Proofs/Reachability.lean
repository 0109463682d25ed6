import Mathlib
import ScriptHost.Proofs.Heap.Search

/-!
# Reachability on any heap

Whether one value reaches another is found by a search that takes one after the other what is left
to look at, and adds the parts of a cell the first time that it comes to it. This module says of the
search what does not depend on the order in which it goes about, and says it of every heap: values
may be shared, and they may even hold themselves.

A search goes on from round to round, taking what is left in whatever order, until it is over
(`Search.answers_or_round`); what holds of it at every moment (`sweeps_of_rounds`) leaves only the
right answer. The relation that it decides is `Heap.Holds`, repeated.

A container refuses a value that reaches it. A path to the container is the same before and after
the value has been stored there, as it can be taken as far as it first comes there. So what is
refused is exactly what would put the container on a cycle: `Heap.search_exact`.
-/

set_option autoImplicit false

namespace ScriptHost.Heap

open Relation

variable {h h' : Heap} {v w p target : Handle}

/-! ## What holds what -/

/-- One value holds another: as an element, under a key, or as a member. -/
inductive Holds (h : Heap) (v p : Handle) : Prop where
  | element {q : Sequence Handle} (array : h.data v = .array q) (mem : p ∈ q.items)
  | entry {d : Dictionary Handle} {k : Key} (dictionary : h.data v = .dictionary d)
    (mem : (k, p) ∈ d.entries)
  | member {r : Record Handle} {name : String} (record : h.data v = .record r)
    (mem : (name, p) ∈ r.members)

/-- The parts of a value are what it holds. -/
theorem holds_iff : h.Holds v p ↔ p ∈ h.parts v := by
  constructor
  · rintro (⟨held, mem⟩ | ⟨held, mem⟩ | ⟨held, mem⟩)
    · rw [parts, held]
      exact mem
    · rw [parts, held]
      exact List.mem_map_of_mem mem
    · rw [parts, held]
      exact List.mem_map_of_mem mem
  · intro part
    cases held : h.data v with
    | leaf l =>
      rw [parts, held] at part
      cases part
    | array q =>
      rw [parts, held] at part
      exact .element held part
    | dictionary d =>
      rw [parts, held] at part
      obtain ⟨⟨k, _⟩, mem, rfl⟩ := List.mem_map.mp part
      exact .entry held mem
    | record r =>
      rw [parts, held] at part
      obtain ⟨⟨name, _⟩, mem, rfl⟩ := List.mem_map.mp part
      exact .member held mem

theorem reaches_iff_reflTransGen : h.Reaches v w ↔ ReflTransGen h.Holds v w := by
  have same : h.Holds = fun u p => p ∈ h.parts u :=
    funext fun _ => funext fun _ => propext holds_iff
  rw [same]
  exact reaches_iff

/-! ## Round after round -/

/-- A search that is not over goes on. -/
theorem Search.answers_or_round (h : Heap) (target : Handle) (s : Search) :
    (∃ b, s.Answers target b) ∨ ∃ t, h.Round target s t := by
  obtain ⟨seen, pending⟩ := s
  cases pending with
  | nil => exact .inl ⟨false, .missed rfl⟩
  | cons v rest =>
    by_cases here : v = target
    · exact .inl ⟨true, .found (by simp [here])⟩
    · by_cases old : v ∈ seen
      · exact .inr ⟨_, .drop (.refl _) here old⟩
      · exact .inr ⟨_, .enter (.refl _) here old (.refl _)⟩

/-- **All rounds** keep to what holds of a search from the start. -/
theorem sweeps_of_rounds {s : Search} (rounds : ReflTransGen (h.Round target) ⟨[], [v]⟩ s) :
    h.Sweeps v target s := by
  induction rounds with
  | refl => exact sweeps_start h v target
  | tail _ round ih => exact round.sweeps ih

/-! ## Storing a value -/

/-- The heap `h'` is `h` with the value stored in the container, where nothing else has been put. -/
structure Stores (h : Heap) (container value : Handle) (h' : Heap) : Prop where
  others : ∀ w, w ≠ container → h'.data w = h.data w
  stored : h'.Holds container value
  only : ∀ p, h'.Holds container p → p = value ∨ h.Holds container p

/-- A value holds itself, directly or through others. -/
def Cyclic (h : Heap) : Prop := ∃ w, TransGen h.Holds w w

/-- A path to a cell can be taken as far as it first comes there, and so far it does not depend on
what the cell holds. -/
theorem Reaches.congr_others (reach : h.Reaches w target)
    (others : ∀ u, u ≠ target → h'.parts u = h.parts u) : h'.Reaches w target := by
  induction reach with
  | refl => exact .refl _
  | @step u p target part _ ih =>
    by_cases here : u = target
    · exact here ▸ .refl _
    · exact .step (by rwa [others u here]) (ih others)

theorem Stores.reaches_iff {container value : Handle} (stores : h.Stores container value h') :
    h'.Reaches w container ↔ h.Reaches w container := by
  have same : ∀ u, u ≠ container → h'.parts u = h.parts u := by
    intro u other
    rw [parts, parts, stores.others u other]
  exact ⟨fun reach => reach.congr_others fun u other => (same u other).symm,
    fun reach => reach.congr_others same⟩

/-- From every step of a cycle one gets back to where it began. -/
theorem transGen_of_cycle {α : Type} {R : α → α → Prop} {a b : α} (path : TransGen R a b)
    (back : ReflTransGen R b a) : TransGen (fun x y => R x y ∧ ReflTransGen R y x) a b := by
  induction path with
  | single link => exact .single ⟨link, back⟩
  | tail earlier link ih =>
    exact (ih (.head link back)).tail ⟨link, back.trans earlier.to_reflTransGen⟩

/-- **Storing closes a cycle** exactly if the value reaches the container. -/
theorem Stores.cyclic_iff {container value : Handle} (stores : h.Stores container value h')
    (none : ¬ h.Cyclic) : h'.Cyclic ↔ h.Reaches value container := by
  constructor
  · rintro ⟨w, cycle⟩
    by_contra away
    -- no link of the cycle is the new one, as none leads back from it, so it was a cycle before
    refine none ⟨w, TransGen.mono ?_ w w (transGen_of_cycle cycle .refl)⟩
    rintro x y ⟨link, back⟩
    by_cases here : x = container
    · subst here
      obtain rfl | before := stores.only y link
      · exact absurd (stores.reaches_iff.mp (reaches_iff_reflTransGen.mpr back)) away
      · exact before
    · have same : h'.parts x = h.parts x := by rw [parts, parts, stores.others x here]
      rw [holds_iff] at link ⊢
      rwa [same] at link
  · intro reach
    exact ⟨container,
      TransGen.head' stores.stored (reaches_iff_reflTransGen.mp (stores.reaches_iff.mpr reach))⟩

/-- **Searching is exact.** On every heap, a value is found to reach another exactly if one comes to
it by elements, values under keys and members. In whatever order the search goes about, it does not
go on for ever; it goes on until it is over, and then its answer is the same; and giving it more
rounds does not change the answer. A value that is to be stored in a container is refused exactly if
the link to it would lie on a cycle in the heap that has it stored, and where there has been no
cycle so far, exactly if there would be one. -/
theorem search_exact (h : Heap) (v target : Handle) :
    (h.reaches v target = true ↔ ReflTransGen h.Holds v target) ∧
    (WellFounded (fun next s => h.Round target s next) ∧
      (∀ s, ReflTransGen (h.Round target) ⟨[], [v]⟩ s →
        ((∃ b, s.Answers target b) ∨ ∃ next, h.Round target s next) ∧ ∀ b, s.Answers target b →
        b = h.reaches v target) ∧
      ∀ rounds, h.partCount + 1 ≤ rounds → h.search target rounds [] [v] = h.reaches v target) ∧
    ∀ h', h.Stores target v h' →
      (HeapM.rejectCycle target v h = .error .containsItself h ∧ ReflTransGen h'.Holds v target ∨
        HeapM.rejectCycle target v h = .ok () h ∧ ¬ ReflTransGen h'.Holds v target) ∧
      (¬ h.Cyclic → (HeapM.rejectCycle target v h = .error .containsItself h ↔ h'.Cyclic)) := by
  refine ⟨reaches_eq_true_iff.trans reaches_iff_reflTransGen, ⟨?_, ?_, ?_⟩, ?_⟩
  · exact Subrelation.wf Round.lowers (measure fun s : Search =>
      s.pending.length + h.unseenParts s.seen).wf
  · intro s rounds
    refine ⟨s.answers_or_round h target, fun b answers => ?_⟩
    exact Bool.eq_iff_iff.mpr
      (((sweeps_of_rounds rounds).answer answers).trans reaches_eq_true_iff.symm)
  · intro rounds enough
    exact Bool.eq_iff_iff.mpr ((search_eq_true_iff enough).trans reaches_eq_true_iff.symm)
  · intro h' stores
    rw [← reaches_iff_reflTransGen, stores.reaches_iff]
    by_cases reach : h.Reaches v target
    · have refused := HeapM.rejectCycle_of_reaches reach
      exact ⟨.inl ⟨refused, reach⟩,
        fun none => iff_of_true refused ((stores.cyclic_iff none).mpr reach)⟩
    · have passed := HeapM.rejectCycle_of_not_reaches reach
      refine ⟨.inr ⟨passed, reach⟩,
        fun none => iff_of_false ?_ (mt (stores.cyclic_iff none).mp reach)⟩
      rw [passed]
      exact nofun

/-- A ring of an array that holds a dictionary twice, which holds a structure, which holds the
array, and an array outside of it: the ring can be stored there, although it never ends. And two
arrays, one in the other: they would be a ring. -/
theorem search_exact_ring :
    let cell := fun d => Cell.mk d false
    let list := fun items => cell (.array (.ofItems 1 items .refuse))
    let ring := Heap.mk #[list [⟨1⟩, ⟨1⟩], cell (.dictionary ⟨[(.boolean true, ⟨2⟩)]⟩),
      cell (.record ⟨none, [("back", ⟨0⟩)]⟩), list []] 0
    let pair := Heap.mk #[list [], list [⟨0⟩]] 0
    (ReflTransGen ring.Holds ⟨1⟩ ⟨0⟩ ∧ ring.Stores ⟨3⟩ ⟨0⟩ (ring.setCell ⟨3⟩ (list [⟨0⟩])) ∧
      HeapM.rejectCycle ⟨3⟩ ⟨0⟩ ring = .ok () ring) ∧
    ¬ pair.Cyclic ∧ pair.Stores ⟨0⟩ ⟨1⟩ (pair.setCell ⟨0⟩ (list [⟨1⟩])) ∧
      (pair.setCell ⟨0⟩ (list [⟨1⟩])).Cyclic := by
  intro cell list ring pair
  have storedRing : ring.Stores ⟨3⟩ ⟨0⟩ (ring.setCell ⟨3⟩ (list [⟨0⟩])) := by
    refine ⟨fun w other => data_congr (cell_setCell_ne ring _ other), holds_iff.mpr (by decide),
      fun p link => .inl ?_⟩
    exact List.mem_singleton.mp (holds_iff.mp link)
  have storedPair : pair.Stores ⟨0⟩ ⟨1⟩ (pair.setCell ⟨0⟩ (list [⟨1⟩])) := by
    refine ⟨fun w other => data_congr (cell_setCell_ne pair _ other), holds_iff.mpr (by decide),
      fun p link => .inl ?_⟩
    exact List.mem_singleton.mp (holds_iff.mp link)
  have apart : ¬ pair.Cyclic := by
    have below : ∀ v p, pair.Holds v p → p.index < v.index := by
      rintro ⟨_ | _ | i⟩ p link
      · cases holds_iff.mp link
      · rw [List.mem_singleton.mp (holds_iff.mp link)]
        decide
      · have part := holds_iff.mp link
        rw [parts_of_not_made (by simp [Made, size, pair])] at part
        cases part
    rintro ⟨w, cycle⟩
    have less : TransGen (· > ·) w.index w.index := cycle.lift Handle.index below
    rw [transGen_eq_self] at less
    exact lt_irrefl _ less
  have found := (search_exact ring ⟨1⟩ ⟨0⟩).1.mp (by decide)
  obtain ⟨⟨refused, -⟩ | ⟨passed, -⟩, -⟩ := (search_exact ring ⟨0⟩ ⟨3⟩).2.2 _ storedRing
  · cases refused
  · refine ⟨⟨found, storedRing, passed⟩, apart, storedPair, ?_⟩
    exact (((search_exact pair ⟨1⟩ ⟨0⟩).2.2 _ storedPair).2 apart).mp rfl

end ScriptHost.Heap
