import ScriptHost.Proofs.Declaration

/-!
# The length of a declared range

The indices of an array type run from its start to its finish, both included. There are up to `2 ^
64` of them, one more than a 64-bit word counts. A range is accepted if it ends no more than one
place before it starts, and then the word holds the number of its indices exactly
(`TypeDesc.toInt_slots`), except for the one range that has all of them, the entire range of
integers (`TypeDesc.counted_iff`): it is taken for an empty one.
-/

set_option autoImplicit false

namespace ScriptHost

namespace TypeDesc

/-- The range of all integers. -/
def Entire (start finish : Integer) : Prop :=
  start.toInt = Integer.least ∧ finish.toInt = Integer.greatest

instance (start finish : Integer) : Decidable (Entire start finish) :=
  inferInstanceAs (Decidable (start.toInt = Integer.least ∧ finish.toInt = Integer.greatest))

variable {start finish : Integer} {element t : TypeDesc} {policy : RangePolicy}

/-- A range is accepted, as it is given, unless it ends before the place before its start. -/
theorem ofRange_eq_ok_iff :
    ofRange start finish element policy = .ok t ↔ start.toInt - 1 ≤ finish.toInt ∧
      t = .array start finish element policy := by
  unfold ofRange
  split
  next inverted => simp [Int.not_le.mpr inverted]
  next ordered => simp [Int.not_lt.mp ordered, eq_comm]

theorem ofRange_eq_error_iff :
    ofRange start finish element policy = .error (.rangeInverted start finish) ↔
      finish.toInt < start.toInt - 1 := by
  unfold ofRange
  split <;> simp_all

/-- A word counts the indices of every range but the entire one. -/
theorem counted_iff :
    finish.toInt - start.toInt + 1 < 18446744073709551616 ↔ ¬ Entire start finish := by
  have low := Integer.least_le_toInt start
  have high := Integer.toInt_le_greatest finish
  simp only [Entire, Integer.least, Integer.greatest] at low high ⊢
  omega

theorem slots_of_entire (entire : Entire start finish) : slots start finish = 0 := by
  rw [slots, entire.1, entire.2]
  decide

theorem vacant_iff : vacant start finish = true ↔ slots start finish = 0 := by
  rw [vacant, beq_iff_eq]

end TypeDesc

namespace HeapM

open TypeDesc

/-- A fresh array holds a default value in every slot. -/
theorem declare_slots (start finish : Integer) (element : TypeDesc) (policy : RangePolicy)
    (h : Heap) :
    ∃ array h₀ slots, declare (.array start finish element policy) h = .ok array h₀ ∧
      h₀.cell array = ⟨.array (.declared start slots element policy), false⟩ ∧
      slots.length = TypeDesc.slots start finish ∧
      ∀ d ∈ slots, d ≠ array ∧ h₀.Declared element d := by
  have each : ∀ e ∈ List.replicate (TypeDesc.slots start finish) element, ∀ h,
      ∃ v h', declare e h = .ok v h' ∧ Heap.Plants [(e, v)] h h' := fun e _ => Heap.plants_declare e
  obtain ⟨slots, h₁, ran, matched, plants⟩ := Heap.plants_mapM each h
  refine ⟨⟨h₁.size⟩, h₁.push ⟨.array (.declared start slots element policy), false⟩, slots, ?_,
    Heap.cell_push_new h₁ _, ?_, ?_⟩
  · rw [declare_eq, TypeDesc.components, bind_of_ok ran]
    rfl
  · rw [matched, List.length_replicate]
  · intro d mem
    obtain ⟨i, lt, rfl⟩ := List.mem_iff_getElem.mp mem
    have root : (element, slots[i]) ∈
        (List.replicate (TypeDesc.slots start finish) element).zip slots := by
      rw [List.length_replicate] at matched
      exact List.mem_iff_getElem.mpr ⟨i, by simpa [← matched] using lt, by simp⟩
    obtain ⟨-, declared⟩ := plants.tops _ root
    refine ⟨?_, declared.extends (Heap.extends_push h₁ _)⟩
    intro same
    exact Heap.not_made_next h₁ (same ▸ declared.made)

/-- A declared array has an element for every slot. -/
theorem declare_array (start finish : Integer) (element : TypeDesc) (policy : RangePolicy)
    (h : Heap) :
    ∃ v h' q, declare (.array start finish element policy) h = .ok v h' ∧ h'.data v = .array q ∧
      q.start = start ∧ q.length = slots start finish := by
  obtain ⟨v, h', parts, ran, cell, length, -⟩ := declare_slots start finish element policy h
  exact ⟨v, h', .declared start parts element policy, ran, by rw [Heap.data, cell], rfl, length⟩

/-- **The length of a range.** A range is accepted exactly if it ends no more than one place before
it starts. An array can then be declared over it in every heap, with as many elements as the range
has slots. Unless the range is the entire one, these are its indices, none lost and none added, and
the array is empty exactly if the range ends one place before it starts. The entire range, of `2 ^
64` indices, has no slots. -/
theorem declared_length (start finish : Integer) (element : TypeDesc) (policy : RangePolicy) :
    ((∃ t, ofRange start finish element policy = .ok t) ↔ start.toInt - 1 ≤ finish.toInt) ∧
    (ofRange start finish element policy = .error (.rangeInverted start finish) ↔
      finish.toInt < start.toInt - 1) ∧
    ∀ t, ofRange start finish element policy = .ok t →
      (∀ h, ∃ v h' q, declare t h = .ok v h' ∧ h'.data v = .array q ∧ q.start = start ∧
        q.length = slots start finish) ∧
      (¬ Entire start finish →
        (slots start finish : Int) = finish.toInt - start.toInt + 1 ∧
        (vacant start finish = true ↔ finish.toInt = start.toInt - 1)) ∧
      (Entire start finish → slots start finish = 0 ∧ vacant start finish = true) := by
  refine ⟨?_, ofRange_eq_error_iff, ?_⟩
  · simp only [ofRange_eq_ok_iff, exists_and_left, exists_eq, and_true]
  · intro t accepted
    obtain ⟨ordered, rfl⟩ := ofRange_eq_ok_iff.mp accepted
    refine ⟨declare_array start finish element policy, ?_, ?_⟩
    · intro partly
      have exact := toInt_slots ordered (counted_iff.mpr partly)
      refine ⟨exact, ?_⟩
      rw [vacant_iff]
      omega
    · intro entire
      have none := slots_of_entire entire
      exact ⟨none, vacant_iff.mpr none⟩

/-- One index less than all: the longest array that can be declared. -/
theorem declared_length_longest :
    (ofRange (-9223372036854775808) 9223372036854775806 .integer .refuse =
      .ok (.array (-9223372036854775808) 9223372036854775806 .integer .refuse)) ∧
    ∃ v h' q, declare (.array (-9223372036854775808) 9223372036854775806 .integer .refuse) .empty =
      .ok v h' ∧ h'.data v = .array q ∧ q.length = 18446744073709551615 := by
  have accepted : ofRange (-9223372036854775808) 9223372036854775806 .integer .refuse =
      .ok (.array (-9223372036854775808) 9223372036854775806 .integer .refuse) := rfl
  obtain ⟨-, -, each⟩ := declared_length (-9223372036854775808) 9223372036854775806 .integer .refuse
  obtain ⟨declares, exact, -⟩ := each _ accepted
  obtain ⟨v, h', q, ran, held, -, length⟩ := declares .empty
  have count : (slots (-9223372036854775808) 9223372036854775806 : Int) = 18446744073709551615 :=
    (exact (by decide)).1
  refine ⟨accepted, v, h', q, ran, held, ?_⟩
  rw [length]
  exact_mod_cast count

/-- The range of all integers is accepted, has `2 ^ 64` indices, and declares an array without
elements. -/
theorem declared_length_entire :
    (ofRange (-9223372036854775808) 9223372036854775807 .integer .refuse =
      .ok (.array (-9223372036854775808) 9223372036854775807 .integer .refuse)) ∧
    (9223372036854775807 : Integer).toInt - (-9223372036854775808 : Integer).toInt + 1 =
      18446744073709551616 ∧
    slots (-9223372036854775808) 9223372036854775807 = 0 ∧
      vacant (-9223372036854775808) 9223372036854775807 = true ∧
    ∃ v h' q, declare (.array (-9223372036854775808) 9223372036854775807 .integer .refuse) .empty =
      .ok v h' ∧ h'.data v = .array q ∧ q.length = 0 :=
  ⟨rfl, by decide, by decide, by decide, _, _, _, rfl, rfl, rfl⟩

end HeapM

end ScriptHost
