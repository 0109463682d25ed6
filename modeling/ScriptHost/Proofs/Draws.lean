import Mathlib
import ScriptHost.Library.Perform
import ScriptHost.Proofs.Number.Mixing

/-!
# Integers drawn from the random stream

An integer is drawn by the remainder of the next word. The integers that can come out are the `span`
integers from `least` on, where the span is up to `2 ^ 64`, more than an integer counts. As every
word comes from one state of the stream, the states that lead to an integer are as many as the words
with its remainder (`ncard_remainder`): all remainders have as many words, up to one.

`DrawsFrom` says this of a draw, on every host. Both draws are of the one form `picked`, so both are
instances of `drawsFrom_picked`. A draw that has nothing to draw from is refused, and leaves the
stream where it is.
-/

set_option autoImplicit false

namespace ScriptHost

/-- Of the numbers up to a bound, those with a given remainder are as many as the bound has whole
spans, and one more if the remainder is within the rest. So are the things that stand for these
numbers one to one. -/
theorem ncard_remainder {α : Type} {number : α → Nat} {bound span r : Nat}
    (distinct : Function.Injective number) (all : ∀ n, n < bound ↔ ∃ a, number a = n)
    (below : r < span) :
    {a | number a % span = r}.ncard = bound / span + if r < bound % span then 1 else 0 := by
  have numbers : Set.image number {a | number a % span = r} =
      ((Finset.range bound).filter (· ≡ r [MOD span]) : Finset Nat) := by
    ext n
    simp only [Set.mem_image, Set.mem_ofPred_eq, Finset.coe_filter, Finset.mem_range, Nat.ModEq,
      Nat.mod_eq_of_lt below, all]
    constructor
    · rintro ⟨a, remains, rfl⟩
      exact ⟨⟨a, rfl⟩, remains⟩
    · rintro ⟨⟨a, rfl⟩, remains⟩
      exact ⟨a, remains, rfl⟩
  rw [← Set.ncard_image_of_injective _ distinct, numbers, Set.ncard_coe_finset,
    ← Nat.count_eq_card_filter_range, Nat.count_modEq_card _ (Nat.zero_lt_of_lt below),
    Nat.mod_eq_of_lt below]

namespace RandomStream

/-- The integer from `least` on that the next word picks. -/
def picked (least span : Int) (s : RandomStream) : Integer :=
  Int64.ofInt (least + s.word.toNat % span)

/-- A draw of one of the `span` integers from `least` on. -/
structure DrawsFrom (draw : RandomStream → Except Fault Integer) (least span : Int) : Prop where
  /-- There is an integer to draw, and there are no more of them than words. -/
  width : 0 < span ∧ span ≤ 18446744073709551616
  /-- On every host one of them is drawn, and the stream moves on by one word. -/
  answers : ∀ s : Host, ∃ v, Routine.tryDraw draw s = .ok v { s with stream := s.stream.advance } ∧
    least ≤ v.toInt ∧ v.toInt < least + span
  /-- Of the `2 ^ 64` states of a stream, as many lead to each of them, or one more. -/
  even : ∀ v : Integer, least ≤ v.toInt → v.toInt < least + span →
    ({stream | draw stream = .ok v}.ncard : Int) = 18446744073709551616 / span ∨
      ({stream | draw stream = .ok v}.ncard : Int) = 18446744073709551616 / span + 1

/-- A draw from nothing, which is refused on every host and leaves all as it is. -/
def DrawsNothing (draw : RandomStream → Except Fault Integer) : Prop :=
  ∀ s : Host, ∃ f, Routine.tryDraw draw s = .error (.fault f) s ∧ f.kind = .domainError

variable {draw : RandomStream → Except Fault Integer} {least span : Int}

/-- What is picked is an integer: nothing is cut off. -/
theorem toInt_picked (some : 0 < span) (low : Integer.least ≤ least)
    (high : least + span - 1 ≤ Integer.greatest) (s : RandomStream) :
    (picked least span s).toInt = least + s.word.toNat % span := by
  have lower := Int.emod_nonneg s.word.toNat (Int.ne_of_gt some)
  have upper := Int.emod_lt_of_pos s.word.toNat some
  exact Integer.toInt_ofInt_of_mem (by omega) (by omega)

/-- The numbers below `2 ^ 64` are the words, one for each state of a stream. -/
theorem toNat_word_range (n : Nat) :
    n < 18446744073709551616 ↔ ∃ s : RandomStream, s.word.toNat = n := by
  constructor
  · intro small
    obtain ⟨s, same⟩ := word_bijective.surjective (UInt64.ofNatLT n small)
    exact ⟨s, by rw [same, UInt64.toNat_ofNatLT]⟩
  · rintro ⟨s, rfl⟩
    exact s.word.toNat_lt

theorem toNat_word_injective : Function.Injective fun s : RandomStream => s.word.toNat :=
  fun _ _ same => word_bijective.injective (UInt64.toNat_inj.mp same)

/-- The states that lead to an integer. -/
theorem ncard_picked (some : 0 < span) (low : Integer.least ≤ least)
    (high : least + span - 1 ≤ Integer.greatest) {v : Integer} (above : least ≤ v.toInt)
    (below : v.toInt < least + span) :
    ∃ more : Nat, more ≤ 1 ∧
      ({s | picked least span s = v}.ncard : Int) = 18446744073709551616 / span + more := by
  obtain ⟨width, rfl⟩ := Int.eq_ofNat_of_zero_le some.le
  obtain ⟨r, place⟩ := Int.eq_ofNat_of_zero_le (show 0 ≤ v.toInt - least by omega)
  have states : {s | picked least width s = v} = {s : RandomStream | s.word.toNat % width = r} := by
    ext s
    rw [Set.mem_ofPred_eq, Set.mem_ofPred_eq, ← Int64.toInt_inj, toInt_picked some low high]
    omega
  rw [states, ncard_remainder toNat_word_injective toNat_word_range (by omega)]
  refine ⟨if r < 18446744073709551616 % width then 1 else 0, by split <;> decide, ?_⟩
  push_cast
  rfl

/-- **A draw by the remainder of a word** gives every integer its share. -/
theorem drawsFrom_picked (some : 0 < span) (low : Integer.least ≤ least)
    (high : least + span - 1 ≤ Integer.greatest) (picks : ∀ s, draw s = .ok (picked least span s)) :
    DrawsFrom draw least span where
  width := by
    simp only [Integer.least, Integer.greatest] at low high
    omega
  answers s := by
    have lower := Int.emod_nonneg s.stream.word.toNat (Int.ne_of_gt some)
    have upper := Int.emod_lt_of_pos s.stream.word.toNat some
    have exact := toInt_picked some low high s.stream
    refine ⟨picked least span s.stream, ?_, by omega, by omega⟩
    simp only [Routine.tryDraw, picks]
  even v above below := by
    have states : {s | draw s = .ok v} = {s | picked least span s = v} := by
      simp only [picks, Except.ok.injEq]
    obtain ⟨more, most, count⟩ := ncard_picked some low high above below
    rw [states, count]
    omega

theorem drawsNothing_of_refused {f : Fault} (refused : ∀ s, draw s = .error f)
    (kind : f.kind = .domainError) : DrawsNothing draw := by
  intro s
  exact ⟨f, by simp only [Routine.tryDraw, refused], kind⟩

/-- **Drawing integers.** From one bound up to another one that is not below it, one of the integers
between them is drawn, both included; from zero up to a positive bound, one of the integers below
the bound. A draw takes one word of the stream, and the states of the stream are shared out evenly
among the integers. Where there is nothing between the bounds, or below the bound, the draw is
refused with a fault of the domain, and takes nothing from the stream. -/
theorem integers_drawn (least greatest bound : Integer) :
    (least ≤ greatest →
      DrawsFrom (·.between least greatest) least.toInt (greatest.toInt - least.toInt + 1)) ∧
    (greatest < least → DrawsNothing (·.between least greatest)) ∧
    (0 < bound → DrawsFrom (·.below bound) 0 bound.toInt) ∧
    (bound ≤ 0 → DrawsNothing (·.below bound)) := by
  have zero : (0 : Integer).toInt = 0 := rfl
  refine ⟨?_, ?_, ?_, ?_⟩
  · intro ordered
    rw [Int64.le_iff_toInt_le] at ordered
    have last := Integer.toInt_le_greatest greatest
    refine drawsFrom_picked (by omega) (Integer.least_le_toInt least) (by omega) fun s => ?_
    rw [between, if_neg (Int.not_lt.mpr ordered), picked]
  · intro inverted
    rw [Int64.lt_iff_toInt_lt] at inverted
    exact drawsNothing_of_refused (fun s => by rw [between, if_pos inverted]) rfl
  · intro positive
    rw [Int64.lt_iff_toInt_lt, zero] at positive
    have last := Integer.toInt_le_greatest bound
    refine drawsFrom_picked positive (by decide) (by omega) fun s => ?_
    rw [below, if_neg (Int.not_le.mpr positive), picked, Int.zero_add]
  · intro none
    rw [Int64.le_iff_toInt_le, zero] at none
    exact drawsNothing_of_refused (fun s => by rw [below, if_pos none]) rfl

/-- A number from 1 to 6: the words are 3074457345618258602 whole sixes and four more, so some
numbers are drawn from one state more. -/
theorem integers_drawn_die :
    (∃ v, Routine.tryDraw (·.between 1 6) (.bare .default) =
        .ok v { Host.bare .default with stream := (Host.bare .default).stream.advance } ∧
        1 ≤ v.toInt ∧ v.toInt < 7) ∧
      ({stream : RandomStream | stream.between 1 6 = .ok 3}.ncard = 3074457345618258602 ∨
        {stream : RandomStream | stream.between 1 6 = .ok 3}.ncard = 3074457345618258603) := by
  obtain ⟨-, answers, even⟩ := (integers_drawn 1 6 1).1 (by decide)
  refine ⟨answers (.bare .default), ?_⟩
  have count := even 3 (by decide) (by decide)
  have sixes : (18446744073709551616 : Int) / ((6 : Integer).toInt - (1 : Integer).toInt + 1) =
      3074457345618258602 := by decide
  rw [sixes] at count
  omega

end RandomStream

end ScriptHost
