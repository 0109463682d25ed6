import Mathlib
import ScriptHost.Proofs.Filling
import ScriptHost.Proofs.RangePolicies
import ScriptHost.Proofs.Ranges

/-!
# Additions to a fresh array

A declared array has a default element for every index of its range. Additions put what they are
given in the place of these, from the first one on, and behind the last one when all have been
replaced, as long as there is an integer for the index. `Sequence.filledBy` is what the contents
then are: what has been added, and behind it the slots that are left. One addition takes this form
to itself with one more element (`push_filledBy`), or finds no index and is refused
(`push_filledBy_of_full`).

`Additions` are additions one after the other, whether they succeed or not. In between, anything can
happen to values other than the array. `HeapM.declared_filled` says how each of them ends, and what
the array holds after all of them.
-/

set_option autoImplicit false

namespace ScriptHost

/-! ## Contents -/

namespace Sequence

variable {ρ : Type} {s : Sequence ρ} {added : List ρ} {v : ρ}

/-- The sequence with its first slots taken by what has been added, which goes on behind the last
slot if it is longer. -/
def filledBy (s : Sequence ρ) (added : List ρ) : Sequence ρ :=
  { s with items := added ++ s.items.drop added.length, filled := added.length }

theorem length_filledBy (s : Sequence ρ) (added : List ρ) :
    (s.filledBy added).length = max s.length added.length := by
  simp only [length, filledBy, List.length_append, List.length_drop]
  omega

theorem items_filledBy_of_lt {i : Nat} (before : i < added.length) :
    (s.filledBy added).items[i]? = some added[i] := by
  rw [filledBy, List.getElem?_append_left before, List.getElem?_eq_getElem before]

theorem items_filledBy_of_le {i : Nat} (behind : added.length ≤ i) :
    (s.filledBy added).items[i]? = s.items[i]? := by
  rw [filledBy, List.getElem?_append_right behind, List.getElem?_drop, Nat.add_sub_cancel' behind]

/-- **One more** takes the next slot, or the next index. -/
theorem push_filledBy (room : s.start.toInt + added.length ≤ Integer.greatest) :
    (s.filledBy added).push v = .ok (s.filledBy (added ++ [v])) := by
  have length := s.length_filledBy added
  by_cases slot : added.length < s.length
  · have next : (s.filledBy added).filled < (s.filledBy added).length := by
      rw [length]
      exact lt_max_of_lt_left slot
    have rest : s.items.drop added.length = s.items[added.length] :: s.items.drop
        (added.length + 1) :=
      List.drop_eq_getElem_cons slot
    rw [push, if_pos next]
    simp only [filledBy, rest, List.set_append_right _ _ (Nat.le_refl _), Nat.sub_self,
      List.set_cons_zero, List.length_append, List.length_singleton, List.append_assoc,
      List.singleton_append]
  · have slot := Nat.le_of_not_lt slot
    rw [Nat.max_eq_right slot] at length
    have taken : ¬ (s.filledBy added).filled < added.length := Nat.lt_irrefl _
    have room : (s.filledBy added).hasRoom (added.length + 1) = true :=
      decide_eq_true (show s.start.toInt + (added.length + 1 : Nat) - 1 ≤ Integer.greatest by omega)
    have none : s.items.drop added.length = [] ∧ s.items.drop (added.length + 1) = [] :=
      ⟨List.drop_of_length_le slot, List.drop_of_length_le (Nat.le_succ_of_le slot)⟩
    rw [push, length, if_neg taken, if_pos room]
    simp only [filledBy, none, List.append_nil, List.length_append, List.length_singleton]

/-- Without an index there is no more. -/
theorem push_filledBy_of_full (slots : s.start.toInt + s.length - 1 ≤ Integer.greatest)
    (full : Integer.greatest < s.start.toInt + added.length) :
    (s.filledBy added).push v = .error (.arrayTooLong s.start (added.length + 1)) := by
  have length : (s.filledBy added).length = added.length := by
    rw [length_filledBy]
    omega
  have taken : ¬ (s.filledBy added).filled < added.length := Nat.lt_irrefl _
  have no : (s.filledBy added).hasRoom (added.length + 1) = false :=
    decide_eq_false (show ¬ s.start.toInt + (added.length + 1 : Nat) - 1 ≤
      Integer.greatest by omega)
  rw [push, length, if_neg taken, no]
  rfl

end Sequence

/-! ## One addition -/

namespace HeapM

variable {h : Heap} {array value : Handle} {s : Sequence Handle} {element : TypeDesc}
  {added : List Handle}

/-- A value of the element kind that does not contain the array is put into its contents, if they
take it. -/
theorem add_of_suits (cell : h.cell array = ⟨.array s, false⟩) (typed : s.element = some element)
    (suits : h.kind value = element.kind) (apart : ¬ h.Reaches value array) :
    add array value h = (do write array (.array (← of (s.push value)))) h := by
  have held : h.data array = .array s := by rw [Heap.data, cell]
  have unlocked : h.isLocked array = false := by rw [Heap.isLocked, cell]
  have checked : of (checkElement s.element (h.kind value)) h = .ok () h := by
    simp only [of, ask, checkElement, typed, suits, if_true]
  rw [add_array held unlocked apart, bind_of_ok checked]

/-- One more goes into the array, and nothing else changes. -/
theorem add_filledBy (cell : h.cell array = ⟨.array (s.filledBy added), false⟩)
    (typed : s.element = some element) (suits : h.kind value = element.kind)
    (apart : ¬ h.Reaches value array) (room : s.start.toInt + added.length ≤ Integer.greatest) :
    add array value h =
      .ok () (h.setCell array ⟨.array (s.filledBy (added ++ [value])), false⟩) := by
  have unlocked : h.isLocked array = false := by rw [Heap.isLocked, cell]
  rw [add_of_suits cell typed suits apart]
  exact store_of_ok (Sequence.push_filledBy room) unlocked

/-- One more without an index is refused. -/
theorem add_filledBy_of_full (cell : h.cell array = ⟨.array (s.filledBy added), false⟩)
    (typed : s.element = some element) (suits : h.kind value = element.kind)
    (apart : ¬ h.Reaches value array) (slots : s.start.toInt + s.length - 1 ≤ Integer.greatest)
    (full : Integer.greatest < s.start.toInt + added.length) :
    add array value h = .error (.arrayTooLong s.start (added.length + 1)) h := by
  rw [add_of_suits cell typed suits apart, Sequence.push_filledBy_of_full slots full]
  rfl

end HeapM

/-! ## Additions one after the other -/

/-- A value that was to be added, and the heap before. -/
structure Attempt where
  value : Handle
  before : Heap

/-- Additions to an array, of values of one kind that do not contain the array at that time, and the
heap after all of them. In between anything can happen to values other than the array and those that
are kept. -/
inductive Additions (array : Handle) (kind : Kind) (kept : Handle → Prop) (h : Heap) :
    List Attempt → Heap → Prop where
  | start : Additions array kind kept h [] h
  | elsewhere {tried : List Attempt} {h₁ h₂ : Heap} (earlier : Additions array kind kept h tried h₁)
    (same : ∀ w, w = array ∨ kept w → h₂.cell w = h₁.cell w) : Additions array kind kept h tried h₂
  | next {tried : List Attempt} {h₁ : Heap} {value : Handle}
    (earlier : Additions array kind kept h tried h₁)
    (suits : h₁.kind value = kind) (apart : ¬ h₁.Reaches value array) :
    Additions array kind kept h (tried ++ [⟨value, h₁⟩]) (endState (HeapM.add array value) h₁)

/-- How the attempt to add an element under an index ends: the value goes into the array and nothing
else changes, if the index is an integer, and otherwise nothing changes and there is a fault of the
range. -/
structure Attempt.Ends (array : Handle) (index : Int) (a : Attempt) : Prop where
  done : index ≤ Integer.greatest →
    ∃ h, HeapM.add array a.value a.before = .ok () h ∧ ∀ w, w ≠ array → h.cell w = a.before.cell w
  refused : Integer.greatest < index → ∃ f, HeapM.add array a.value a.before = .error f a.before ∧
    f.kind = .rangeError

namespace Additions

variable {array : Handle} {element : TypeDesc} {kept : Handle → Prop} {h h' : Heap}
  {tried : List Attempt} {s : Sequence Handle}

/-- What has been added: as many values as there are indices for. -/
def taken (start : Integer) (tried : List Attempt) : List Handle :=
  (tried.map (·.value)).take (Integer.greatest - start.toInt + 1).toNat

theorem length_taken (start : Integer) (tried : List Attempt) :
    (taken start tried).length = min (Integer.greatest - start.toInt + 1).toNat tried.length := by
  simp [taken]

theorem taken_append_of_room {start : Integer} {a : Attempt}
    (room : start.toInt + tried.length ≤ Integer.greatest) :
    taken start (tried ++ [a]) = taken start tried ++ [a.value] := by
  simp only [taken, List.map_append, List.map_cons, List.map_nil]
  rw [List.take_of_length_le, List.take_of_length_le]
  · rw [List.length_map]
    omega
  · rw [List.length_append, List.length_map, List.length_singleton]
    omega

theorem taken_append_of_full {start : Integer} {a : Attempt}
    (full : Integer.greatest < start.toInt + tried.length) :
    taken start (tried ++ [a]) = taken start tried := by
  simp only [taken, List.map_append]
  rw [List.take_append_of_le_length]
  rw [List.length_map]
  omega

theorem ends_append {start : Int} {a : Attempt}
    (ends : ∀ (i : Nat) (lt : i < tried.length), tried[i].Ends array (start + i))
    (last : a.Ends array (start + tried.length)) (i : Nat) (lt : i < (tried ++ [a]).length) :
    (tried ++ [a])[i].Ends array (start + i) := by
  rw [List.getElem_append]
  split
  next old => exact ends i old
  next new =>
    obtain rfl : i = tried.length := by
      rw [List.length_append, List.length_singleton] at lt
      omega
    simpa using last

/-- **All additions.** Each ends as its index has it, the array holds what has been added, and other
values that are kept stay as they are. -/
theorem filled (run : Additions array element.kind kept h tried h')
    (cell : h.cell array = ⟨.array (s.filledBy []), false⟩) (typed : s.element = some element)
    (slots : s.start.toInt + s.length - 1 ≤ Integer.greatest) :
    (∀ (i : Nat) (lt : i < tried.length), tried[i].Ends array (s.start.toInt + i)) ∧
      h'.cell array = ⟨.array (s.filledBy (taken s.start tried)), false⟩ ∧ ∀ w, w ≠ array → kept w →
      h'.cell w = h.cell w := by
  induction run with
  | start =>
    have none : taken s.start [] = [] := List.take_nil
    exact ⟨by simp, none.symm ▸ cell, fun _ _ _ => rfl⟩
  | elsewhere _ same ih =>
    obtain ⟨ends, now, others⟩ := ih
    refine ⟨ends, (same array (.inl rfl)).trans now, fun w other keep => ?_⟩
    exact (same w (.inr keep)).trans (others w other keep)
  | @next tried h₁ value _ suits apart ih =>
    obtain ⟨ends, now, others⟩ := ih
    have count := length_taken s.start tried
    have last := Integer.toInt_le_greatest s.start
    by_cases room : s.start.toInt + tried.length ≤ Integer.greatest
    · -- all values so far have been added, and there is an index for one more
      have ran := HeapM.add_filledBy now typed suits apart (by omega)
      have made : h₁.Made array := Heap.made_of_unlocked (by rw [Heap.isLocked, now])
      have frame : ∀ w, w ≠ array →
          (h₁.setCell array ⟨.array (s.filledBy (taken s.start tried ++ [value])), false⟩).cell w =
          h₁.cell w := fun w other => Heap.cell_setCell_ne h₁ _ other
      rw [endState, ran, taken_append_of_room room]
      refine ⟨ends_append ends ?_, Heap.cell_setCell_self h₁ array _ made, fun w other keep => ?_⟩
      · exact ⟨fun _ => ⟨_, ran, frame⟩, fun beyond => absurd room (Int.not_le.mpr beyond)⟩
      · exact (frame w other).trans (others w other keep)
    · -- every index is taken, and what has been added stays
      have ran := HeapM.add_filledBy_of_full now typed suits apart slots (by omega)
      rw [endState, ran, taken_append_of_full (Int.not_le.mp room)]
      refine ⟨ends_append ends ?_, now, others⟩
      exact ⟨fun inside => absurd inside room, fun _ => ⟨_, ran, rfl⟩⟩

end Additions

/-! ## Fresh arrays -/

namespace HeapM

variable {start finish : Integer} {element t : TypeDesc} {policy : RangePolicy}

/-- **Filling a fresh array.** An array over a range that a word can count starts with a default
element for each of its indices. After additions of values of the element kind, the array starts
where it did. Each addition whose index is an integer has succeeded, and what it added is under that
index; every other one has failed with a fault of the range and changed nothing. The array is as
long as its range, or as long as the additions are many, and the indices behind them have the
default elements, untouched. -/
theorem declared_filled (accepted : TypeDesc.ofRange start finish element policy = .ok t)
    (counted : finish.toInt - start.toInt + 1 < 18446744073709551616) (h : Heap) :
    ∃ (array : Handle) (h₀ : Heap) (slots : List Handle), declare t h = .ok array h₀ ∧
      (slots.length : Int) = finish.toInt - start.toInt + 1 ∧ (∀ d ∈ slots, h₀.Declared element d) ∧
      ∀ (kept : Handle → Prop) (tried : List Attempt) (h' : Heap),
      Additions array element.kind kept h₀ tried h' →
        (∀ (i : Nat) (lt : i < tried.length), tried[i].Ends array (start.toInt + i)) ∧
        ∃ q, h'.data array = .array q ∧ q.start = start ∧
          (start.toInt + max slots.length tried.length - 1 ≤ Integer.greatest →
            q.length = max slots.length tried.length) ∧
          (∀ (i : Nat) (lt : i < tried.length) (index : Integer), index.toInt = start.toInt + i →
            elementAt array index h' = .ok tried[i].value h') ∧
          ∀ (i : Nat) (lt : i < slots.length), tried.length ≤ i →
            (∀ index : Integer, index.toInt = start.toInt + i →
              elementAt array index h' = .ok slots[i] h') ∧
            (kept slots[i] → h'.cell slots[i] = h₀.cell slots[i]) := by
  obtain ⟨ordered, rfl⟩ := TypeDesc.ofRange_eq_ok_iff.mp accepted
  obtain ⟨array, h₀, slots, ran, cell, length, each⟩ := declare_slots start finish element policy h
  have count : (slots.length : Int) = finish.toInt - start.toInt + 1 :=
    length ▸ TypeDesc.toInt_slots ordered counted
  refine ⟨array, h₀, slots, ran, count, fun d mem => (each d mem).2, ?_⟩
  intro kept tried h' run
  have last := Integer.toInt_le_greatest finish
  obtain ⟨ends, now, others⟩ := run.filled (s := .declared start slots element policy) cell rfl
    (show start.toInt + slots.length - 1 ≤ Integer.greatest by omega)
  have taken := Additions.length_taken start tried
  have held : h'.data array = .array
      ((Sequence.declared start slots element policy).filledBy (Additions.taken start tried)) := by
    rw [Heap.data, now]
    rfl
  refine ⟨ends, _, held, rfl, ?_, ?_, ?_⟩
  · intro room
    have whole : (Sequence.declared start slots element policy).length = slots.length := rfl
    rw [Sequence.length_filledBy, whole]
    omega
  · intro i lt index place
    have limit := Integer.toInt_le_greatest index
    have before : i < (Additions.taken start tried).length := by omega
    have value : (Additions.taken start tried)[i] = tried[i].value := by simp [Additions.taken]
    exact elementAt_of_getElem? held (value ▸ Sequence.items_filledBy_of_lt before) place
  · intro i lt behind
    refine ⟨fun index place => ?_, others slots[i] (each _ (List.getElem_mem lt)).1⟩
    refine elementAt_of_getElem? held ?_ place
    rw [Sequence.items_filledBy_of_le (by omega)]
    exact List.getElem?_eq_getElem lt

/-- One slot before the greatest integer: the first number takes it, the second one has the greatest
index, and the third one none. -/
theorem declared_filled_last :
    let number := fun i => Cell.mk (.leaf (.integer i none)) false
    let h := Heap.mk #[number 1, number 2, number 3] 0
    ∃ array h₀ h₁ h₂, declare (.array 9223372036854775806 9223372036854775806 .integer .refuse) h =
      .ok array h₀ ∧ add array ⟨0⟩ h₀ = .ok () h₁ ∧ add array ⟨1⟩ h₁ = .ok () h₂ ∧
      elementAt array 9223372036854775806 h₂ = .ok ⟨0⟩ h₂ ∧
      elementAt array 9223372036854775807 h₂ = .ok ⟨1⟩ h₂ ∧ ∃ f, add array ⟨2⟩ h₂ = .error f h₂ ∧
      f.kind = .rangeError := by
  intro number h
  let heap := fun (items : List Handle) (filled : Nat) =>
    Heap.mk #[number 1, number 2, number 3, number 0,
      ⟨.array ⟨9223372036854775806, items, filled, some .integer, .refuse⟩, false⟩] 0
  have accepted : TypeDesc.ofRange 9223372036854775806 9223372036854775806 .integer .refuse =
      .ok (.array 9223372036854775806 9223372036854775806 .integer .refuse) := rfl
  obtain ⟨array, h₀, slots, ran, -, -, fills⟩ := declared_filled accepted (by decide) h
  have fresh : declare (.array 9223372036854775806 9223372036854775806 .integer .refuse) h =
      .ok ⟨4⟩ (heap [⟨3⟩] 0) := rfl
  obtain ⟨rfl, rfl⟩ : Handle.mk 4 = array ∧ heap [⟨3⟩] 0 = h₀ := by simpa [fresh] using ran
  have one : Additions ⟨4⟩ .integer (fun _ => True) (heap [⟨3⟩] 0) [⟨⟨0⟩, heap [⟨3⟩] 0⟩]
      (heap [⟨0⟩] 1) :=
    .next .start rfl (mt Heap.reaches_eq_true_iff.mpr (by decide))
  have two : Additions ⟨4⟩ .integer (fun _ => True) (heap [⟨3⟩] 0)
      [⟨⟨0⟩, heap [⟨3⟩] 0⟩, ⟨⟨1⟩, heap [⟨0⟩] 1⟩]
      (heap [⟨0⟩, ⟨1⟩] 2) := .next one rfl (mt Heap.reaches_eq_true_iff.mpr (by decide))
  have three : Additions ⟨4⟩ .integer (fun _ => True) (heap [⟨3⟩] 0)
      [⟨⟨0⟩, heap [⟨3⟩] 0⟩, ⟨⟨1⟩, heap [⟨0⟩] 1⟩, ⟨⟨2⟩, heap [⟨0⟩, ⟨1⟩] 2⟩] (heap [⟨0⟩, ⟨1⟩] 2) :=
    .next two rfl (mt Heap.reaches_eq_true_iff.mpr (by decide))
  obtain ⟨ends, q, -, -, -, added, -⟩ := fills _ _ _ three
  refine ⟨⟨4⟩, heap [⟨3⟩] 0, heap [⟨0⟩] 1, heap [⟨0⟩, ⟨1⟩] 2, fresh, rfl, rfl, ?_, ?_, ?_⟩
  · exact added 0 (by decide) 9223372036854775806 (by decide)
  · exact added 1 (by decide) 9223372036854775807 (by decide)
  · exact (ends 2 (by decide)).refused (by decide)

end HeapM

end ScriptHost
