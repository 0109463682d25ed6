import Mathlib
import ScriptHost.Proofs.Heap.Assign
import ScriptHost.Session

/-!
# Range policies

A policy says what becomes of a number outside of its range, and of an index that has no element: it
is refused, moved to the nearest end, or rolled over by whole widths. The numbers in between are
wider than integers, as the distance of two integers takes 65 bits, so the rules are stated with
mathematical integers, and what is brought back to an integer is shown to be one.

Rolling over is the same thing in both places: of the numbers from `least` on, as many as the range
is wide, one is congruent to a given number, and no other one is (`rolls_iff`). From that, a number
is rolled over to the same place as any other one that is whole widths away, and a place inside is
rolled over to itself. `Bounds.policy_applied` is the account of numbers, and `HeapM.index_resolved`
that of indices: the position is always that of an element.
-/

set_option autoImplicit false

namespace ScriptHost

/-- The distance of two integers takes 65 bits. -/
theorem Integer.abs_sub_lt (i j : Integer) : |i.toInt - j.toInt| < 18446744073709551616 := by
  have low := least_le_toInt i
  have high := toInt_le_greatest i
  have low' := least_le_toInt j
  have high' := toInt_le_greatest j
  simp only [least, greatest] at low high low' high'
  rw [abs_lt]
  omega

/-! ## Rolling over -/

/-- Of the numbers from `least` on, one in each width is congruent to `v`. -/
theorem rolls_iff {least width v w : Int} (positive : 0 < width) :
    (least ≤ w ∧ w < least + width) ∧ w ≡ v [ZMOD width] ↔ w = least + (v - least) % width := by
  have lower := Int.emod_nonneg (v - least) (Int.ne_of_gt positive)
  have upper := Int.emod_lt_of_pos (v - least) positive
  constructor
  · rintro ⟨⟨low, high⟩, congruent⟩
    have same : (w - least) % width = (v - least) % width := congruent.sub_right least
    rw [Int.emod_eq_of_lt (by omega) (by omega)] at same
    omega
  · rintro rfl
    refine ⟨⟨by omega, by omega⟩, ?_⟩
    calc least + (v - least) % width
      _ ≡ least + (v - least) [ZMOD width] := (Int.mod_modEq _ _).add_left least
      _ = v := by omega

/-! ## Numbers -/

namespace Bounds

variable {b : Bounds Integer} {v w : Integer}

/-- The integer lies between the ends. -/
def Inside (b : Bounds Integer) (v : Integer) : Prop := b.least ≤ v ∧ v ≤ b.greatest

/-- Nothing in the range is nearer to `v` than `w`, which is an end. -/
def Nearest (b : Bounds Integer) (v w : Integer) : Prop :=
  (w = b.least ∨ w = b.greatest) ∧ ∀ u, b.Inside u → |v.toInt - w.toInt| ≤ |v.toInt - u.toInt|

/-- Where rolling over leads from `v`. -/
def rolled (b : Bounds Integer) (v : Integer) : Int :=
  b.least.toInt + (v.toInt - b.least.toInt) % b.width

/-- A range is the numbers from its least one on, as many as it is wide. -/
theorem inside_iff : b.Inside v ↔ b.least.toInt ≤ v.toInt ∧ v.toInt < b.least.toInt + b.width := by
  rw [Inside, Int64.le_iff_toInt_le, Int64.le_iff_toInt_le, width]
  omega

theorem holds_eq_true_iff : b.holds v = true ↔ b.Inside v := by simp [holds, Inside]

theorem width_pos (b : Bounds Integer) : 0 < b.width := by
  have ordered := Int64.le_iff_toInt_le.mp b.ordered
  rw [width]
  omega

/-- The widest range is that of all integers. -/
theorem width_le (b : Bounds Integer) : b.width ≤ 18446744073709551616 := by
  have low := Integer.least_le_toInt b.least
  have high := Integer.toInt_le_greatest b.greatest
  rw [width]
  simp only [Integer.least, Integer.greatest] at low high
  omega

/-- The members of the range that are congruent to `v` are where rolling over leads, which is an
integer. -/
theorem eq_rolled_iff :
    b.Inside w ∧ w.toInt ≡ v.toInt [ZMOD b.width] ↔ w = Int64.ofInt (b.rolled v) := by
  have fits : (Int64.ofInt (b.rolled v)).toInt = b.rolled v := by
    have inside := (rolls_iff (v := v.toInt) b.width_pos).mpr (rfl : b.rolled v = _)
    have low := Integer.least_le_toInt b.least
    have high := Integer.toInt_le_greatest b.greatest
    have last : b.rolled v < b.least.toInt + b.width := inside.1.2
    rw [width] at last
    exact Integer.toInt_ofInt_of_mem (by omega) (by omega)
  rw [inside_iff, rolls_iff b.width_pos, ← Int64.toInt_inj, fits, rolled]

/-- What is in the range stays as it is. -/
theorem fit_of_inside (inside : b.Inside v) : b.fit v = .ok v := by
  rw [fit, if_pos (holds_eq_true_iff.mpr inside)]

/-- What is outside is refused. -/
theorem fit_of_outside_refuse (outside : ¬ b.Inside v) (policy : b.policy = .refuse) :
    b.fit v = .error (.integerOutOfBounds v b.least b.greatest) := by
  rw [fit, if_neg (mt holds_eq_true_iff.mp outside), policy]

/-- What is outside becomes the nearest bound. -/
theorem fit_of_outside_cap (outside : ¬ b.Inside v) (policy : b.policy = .cap) :
    ∃ w, b.fit v = .ok w ∧ b.Nearest v w := by
  have run : b.fit v = .ok (if v < b.least then b.least else b.greatest) := by
    rw [fit, if_neg (mt holds_eq_true_iff.mp outside), policy]
  refine ⟨_, run, ?_⟩
  rw [inside_iff, width] at outside
  split
  next before =>
    rw [Int64.lt_iff_toInt_lt] at before
    refine ⟨.inl rfl, fun u inside => ?_⟩
    rw [inside_iff] at inside
    rw [abs_of_neg (by omega), abs_of_neg (by omega)]
    omega
  next behind =>
    rw [Int64.lt_iff_toInt_lt] at behind
    refine ⟨.inr rfl, fun u inside => ?_⟩
    rw [inside_iff, width] at inside
    rw [abs_of_pos (by omega), abs_of_nonneg (by omega)]
    omega

/-- Inside the range as well as outside, the number that is rolled over is the congruent one. -/
theorem fit_of_rollover (policy : b.policy = .rollover) (v : Integer) :
    b.fit v = .ok (Int64.ofInt (b.rolled v)) := by
  by_cases inside : b.Inside v
  · rw [fit_of_inside inside, ← eq_rolled_iff.mp ⟨inside, Int.ModEq.refl v.toInt⟩]
  · rw [fit, if_neg (mt holds_eq_true_iff.mp inside), policy]
    rfl

/-- Whole widths do not matter. -/
theorem rolled_congr {u : Integer} {k : Int} (apart : u.toInt = v.toInt + k * b.width) :
    b.rolled u = b.rolled v := by
  rw [rolled, rolled, apart, add_sub_right_comm, Int.add_mul_emod_self_right]

/-- **Numbers and their range.** What a policy computes with stays within 65 bits and a sign. A
number in the range is kept. Any other one is refused, or moved to the nearest end, or rolled over
to the one member of the range that is congruent to it modulo the width. What comes out lies in the
range, and applying the policy again keeps it. Adding whole widths before rolling over, to the
number or to what it is rolled over to, changes nothing. -/
theorem policy_applied (b : Bounds Integer) (v : Integer) :
    (0 < b.width ∧ b.width ≤ 18446744073709551616 ∧
      |v.toInt - b.least.toInt| < 18446744073709551616) ∧
    (b.Inside v → b.fit v = .ok v) ∧
    (¬ b.Inside v →
      (b.policy = .refuse → ∃ f, b.fit v = .error f ∧ f.kind = .illegalValue) ∧
      (b.policy = .cap → ∃ w, b.fit v = .ok w ∧ b.Nearest v w) ∧
      (b.policy = .rollover → ∃ w, b.fit v = .ok w ∧ ∀ u, b.Inside u ∧
        u.toInt ≡ v.toInt [ZMOD b.width] ↔ u = w)) ∧
    (∀ w, b.fit v = .ok w → b.Inside w ∧ b.fit w = .ok w) ∧
    (b.policy = .rollover → ∀ (k : Int) (u : Integer),
      (u.toInt = v.toInt + k * b.width → b.fit u = b.fit v) ∧
      ∀ w, b.fit v = .ok w → u.toInt = w.toInt + k * b.width → b.fit u = b.fit v) := by
  refine ⟨⟨b.width_pos, b.width_le, Integer.abs_sub_lt v b.least⟩, fit_of_inside, ?_, ?_, ?_⟩
  · intro outside
    refine ⟨fun policy => ⟨_, fit_of_outside_refuse outside policy, rfl⟩,
      fit_of_outside_cap outside, fun policy => ?_⟩
    exact ⟨_, fit_of_rollover policy v, fun u => eq_rolled_iff⟩
  · intro w fitted
    have inside := holds_eq_true_iff.mp (holds_of_fit fitted)
    exact ⟨inside, fit_of_inside inside⟩
  · intro policy k u
    constructor
    · intro apart
      rw [fit_of_rollover policy, fit_of_rollover policy, rolled_congr apart]
    · intro w fitted apart
      have inside := holds_eq_true_iff.mp (holds_of_fit fitted)
      rw [fitted, ← fit_of_inside inside, fit_of_rollover policy, fit_of_rollover policy,
        rolled_congr apart]

/-- All integers but the greatest: the greatest is rolled over to the least. -/
theorem policy_applied_greatest :
    let b : Bounds Integer := ⟨-9223372036854775808, 9223372036854775806, .rollover, by decide⟩
    ¬ b.Inside 9223372036854775807 ∧ b.fit 9223372036854775807 = .ok (-9223372036854775808) := by
  intro b
  have outside : ¬ b.Inside 9223372036854775807 := fun inside => absurd inside.2 (by decide)
  obtain ⟨-, -, others, -⟩ := b.policy_applied 9223372036854775807
  obtain ⟨w, fitted, only⟩ := (others outside).2.2 rfl
  obtain rfl : -9223372036854775808 = w :=
    (only (-9223372036854775808)).mp ⟨⟨by decide, by decide⟩, by decide⟩
  exact ⟨outside, fitted⟩

end Bounds

/-! ## Indices -/

namespace Sequence

variable {ρ : Type} {s : Sequence ρ} {i j : Integer}

/-- There is nothing at any index of an empty array. -/
theorem resolve_of_empty (none : s.length = 0) (i : Integer) :
    s.resolve i = .error (s.outOfRange i) := by
  rw [resolve, dif_pos none]

/-- An index inside stands for its own position. -/
theorem resolve_of_inside (low : 0 ≤ s.offset i) (high : s.offset i < s.length) :
    ∃ p, s.resolve i = .ok p ∧ (p : Int) = s.offset i := by
  have full : s.length ≠ 0 := by omega
  refine ⟨⟨_, toNat_offset_lt ⟨low, high⟩⟩, ?_, Int.toNat_of_nonneg low⟩
  rw [resolve, dif_neg full, dif_pos ⟨low, high⟩]

/-- An index outside is refused. -/
theorem resolve_of_outside_refuse (outside : ¬ (0 ≤ s.offset i ∧ s.offset i < s.length))
    (policy : s.policy = .refuse) : s.resolve i = .error (s.outOfRange i) := by
  by_cases none : s.length = 0
  · exact resolve_of_empty none i
  · rw [resolve, dif_neg none, dif_neg outside, policy]

/-- An index outside stands for the nearest position. -/
theorem resolve_of_outside_cap (full : s.length ≠ 0)
    (outside : ¬ (0 ≤ s.offset i ∧ s.offset i < s.length)) (policy : s.policy = .cap) :
    ∃ p, s.resolve i = .ok p ∧ (p : Nat) = if s.offset i < 0 then 0 else s.length - 1 := by
  refine ⟨if s.offset i < 0 then ⟨0, length_pos full⟩ else ⟨s.length - 1, last_lt full⟩, ?_, ?_⟩
  · rw [resolve, dif_neg full, dif_neg outside, policy]
  · split <;> rfl

/-- Inside the array as well as outside, the position that an index is rolled over to is the
congruent one. -/
theorem resolve_of_rollover (full : s.length ≠ 0) (policy : s.policy = .rollover) (i : Integer) :
    ∃ p, s.resolve i = .ok p ∧ (p : Int) = s.offset i % s.length := by
  by_cases inside : 0 ≤ s.offset i ∧ s.offset i < s.length
  · obtain ⟨p, found, place⟩ := resolve_of_inside inside.1 inside.2
    exact ⟨p, found, by rw [place, Int.emod_eq_of_lt inside.1 inside.2]⟩
  · refine ⟨⟨_, wrapped_lt full (s.offset i)⟩, ?_,
      Int.toNat_of_nonneg (Int.emod_nonneg _ (by omega))⟩
    rw [resolve, dif_neg full, dif_neg inside, policy]

/-- The whole length does not matter. -/
theorem resolve_congr (policy : s.policy = .rollover) (apart : j.toInt = i.toInt + s.length) :
    s.resolve j = s.resolve i := by
  by_cases none : s.length = 0
  · obtain rfl : j = i := Int64.toInt_inj.mp (by omega)
    rfl
  · obtain ⟨p, found, place⟩ := resolve_of_rollover none policy i
    obtain ⟨o, found', place'⟩ := resolve_of_rollover none policy j
    have shifted : s.offset j = s.offset i + s.length := by simp only [offset]; omega
    rw [shifted, Int.add_emod_right] at place'
    have same : o = p := Fin.ext (by omega)
    rw [found, found', same]

end Sequence

namespace HeapM

variable {h : Heap} {a : Handle} {q : Sequence Handle} {i : Integer}

theorem resolve_of_ok {p : Fin q.length} (held : h.data a = .array q)
    (found : q.resolve i = .ok p) : resolve a i h = .ok p h := by
  simp only [resolve, ask, held, found, Except.map]

theorem resolve_of_error {f : Fault} (held : h.data a = .array q)
    (missed : q.resolve i = .error f) : resolve a i h = .error f h := by
  simp only [resolve, ask, held, missed, Except.map]

/-- An element is found where its index is resolved. -/
theorem elementAt_of_ok {p : Fin q.length} (held : h.data a = .array q)
    (found : q.resolve i = .ok p) : elementAt a i h = .ok (q.items.get p) h := by
  simp only [elementAt, ask, held, Sequence.get, found, Except.map]

/-- None is found where it is not. -/
theorem elementAt_of_error {f : Fault} (held : h.data a = .array q)
    (missed : q.resolve i = .error f) : elementAt a i h = .error f h := by
  simp only [elementAt, ask, held, Sequence.get, missed, Except.map]

/-- An index inside leads to its own element, under every policy. -/
theorem elementAt_of_getElem? {o : Nat} {v : Handle} (held : h.data a = .array q)
    (there : q.items[o]? = some v) (place : i.toInt = q.start.toInt + o) :
    elementAt a i h = .ok v h := by
  obtain ⟨inside, rfl⟩ := List.getElem?_eq_some_iff.mp there
  have distance : q.offset i = o := by
    rw [Sequence.offset]
    omega
  obtain ⟨p, found, same⟩ := Sequence.resolve_of_inside (s := q) (i := i) (by omega)
    (by rw [distance]; exact_mod_cast inside)
  obtain rfl : p = ⟨o, inside⟩ := Fin.ext (by rw [distance] at same; exact_mod_cast same)
  exact elementAt_of_ok held found

/-- Faults of indices are faults of the range. -/
theorem kind_of_resolve {f : Fault} (missed : q.resolve i = .error f) : f.kind = .rangeError := by
  unfold Sequence.resolve at missed
  split at missed
  · cases missed
    rfl
  · split at missed
    · cases missed
    · split at missed <;> cases missed
      rfl

/-- **Indices and their array.** The distance of an index from the start of the array takes 65 bits.
An index leads to the position of an element, and that element is read; or to a fault of the range.
In an array without elements it is the fault, under every policy. Otherwise an index from the first
to the last leads to its distance from the first. Any other one is a fault, or leads to the first or
to the last position, or to the one position that is congruent to its distance. So when indices roll
over, an index and the one that is the length of the array behind it have the same element. -/
theorem index_resolved (held : h.data a = .array q) (i : Integer) :
    |q.offset i| < 18446744073709551616 ∧
    ((∃ p, ∃ inside : p < q.items.length, resolve a i h = .ok p h ∧
      elementAt a i h = .ok q.items[p] h) ∨ ∃ f, resolve a i h = .error f h ∧
      elementAt a i h = .error f h ∧ f.kind = .rangeError) ∧
    (q.length = 0 → ∃ f, resolve a i h = .error f h ∧ f.kind = .rangeError) ∧
    (1 ≤ q.length →
      (q.start.toInt ≤ i.toInt ∧ i.toInt ≤ q.start.toInt + q.length - 1 →
        ∃ p : Nat, resolve a i h = .ok p h ∧ (p : Int) = i.toInt - q.start.toInt) ∧
      (i.toInt < q.start.toInt ∨ q.start.toInt + q.length - 1 < i.toInt →
        (q.policy = .refuse → ∃ f, resolve a i h = .error f h ∧ f.kind = .rangeError) ∧
        (q.policy = .cap →
          (i.toInt < q.start.toInt → resolve a i h = .ok 0 h) ∧
          (q.start.toInt + q.length - 1 < i.toInt → resolve a i h = .ok (q.length - 1) h)) ∧
        (q.policy = .rollover → ∃ p, resolve a i h = .ok p h ∧
          ∀ o : Nat, o < q.length ∧ (o : Int) ≡ i.toInt - q.start.toInt [ZMOD q.length] ↔ o = p))) ∧
    (q.policy = .rollover → ∀ j : Integer, j.toInt = i.toInt + q.length →
      elementAt a j h = elementAt a i h) := by
  refine ⟨Integer.abs_sub_lt i q.start, ?_, ?_, ?_, ?_⟩
  · cases reached : q.resolve i with
    | ok p => exact .inl ⟨p, p.isLt, resolve_of_ok held reached, elementAt_of_ok held reached⟩
    | error f =>
      exact .inr ⟨f, resolve_of_error held reached, elementAt_of_error held reached,
        kind_of_resolve reached⟩
  · intro none
    exact ⟨_, resolve_of_error held (Sequence.resolve_of_empty none i), rfl⟩
  · intro some
    have full : q.length ≠ 0 := by omega
    have distance : q.offset i = i.toInt - q.start.toInt := rfl
    refine ⟨?_, ?_⟩
    · rintro ⟨low, high⟩
      obtain ⟨p, found, place⟩ := Sequence.resolve_of_inside (s := q) (i := i) (by omega) (by omega)
      exact ⟨p, resolve_of_ok held found, place⟩
    · intro beyond
      have outside : ¬ (0 ≤ q.offset i ∧ q.offset i < q.length) := by omega
      refine ⟨?_, ?_, ?_⟩
      · intro policy
        exact ⟨_, resolve_of_error held (Sequence.resolve_of_outside_refuse outside policy), rfl⟩
      · intro policy
        obtain ⟨p, found, place⟩ := Sequence.resolve_of_outside_cap full outside policy
        rw [resolve_of_ok held found, place]
        refine ⟨fun before => by rw [if_pos (by omega)], fun behind => by rw [if_neg (by omega)]⟩
      · intro policy
        obtain ⟨p, found, place⟩ := Sequence.resolve_of_rollover full policy i
        refine ⟨p, resolve_of_ok held found, fun o => ?_⟩
        have congruent : (0 ≤ (o : Int) ∧ (o : Int) < 0 + q.length) ∧
            (o : Int) ≡ q.offset i [ZMOD q.length] ↔ (o : Int) = 0 + (q.offset i - 0) % q.length :=
              rolls_iff (by omega)
        rw [Int.zero_add, Int.zero_add, Int.sub_zero, ← place, distance] at congruent
        constructor
        · rintro ⟨below, near⟩
          exact Int.ofNat_inj.mp (congruent.mp ⟨⟨by omega, by omega⟩, near⟩)
        · rintro rfl
          exact ⟨p.isLt, (congruent.mpr rfl).2⟩
  · intro policy j apart
    have same := Sequence.resolve_congr policy apart
    simp only [elementAt, ask, held, Sequence.get, same]

/-- Two elements from the least integer on: the greatest one is an odd distance away, and leads to
the second element. -/
theorem index_resolved_ends :
    let h := (Session.after (.bare .default)
      [.hold "two" (.array (-9223372036854775808) [.literal (.integer 1),
        .literal (.integer 2)] .rollover)]).heap
    h.parts ⟨2⟩ = [⟨0⟩, ⟨1⟩] ∧ resolve ⟨2⟩ 9223372036854775807 h = .ok 1 h ∧
      elementAt ⟨2⟩ 9223372036854775807 h = .ok ⟨1⟩ h := by
  intro h
  have held : h.data ⟨2⟩ = .array (.ofItems (-9223372036854775808) [⟨0⟩, ⟨1⟩] .rollover) := rfl
  obtain ⟨-, reads, -, some, -⟩ := index_resolved held 9223372036854775807
  obtain ⟨p, found, only⟩ := ((some (by decide)).2 (.inr (by decide))).2.2 rfl
  obtain rfl : 1 = p := (only 1).mp (by decide)
  refine ⟨rfl, found, ?_⟩
  obtain ⟨o, inside, found', read⟩ | ⟨f, missed, -⟩ := reads
  · rw [found] at found'
    cases found'
    exact read
  · rw [found] at missed
    cases missed

end HeapM

end ScriptHost
