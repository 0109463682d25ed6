import Mathlib
import ScriptHost.Random

/-!
# Words of the random stream

A word of the stream is its state with the bits mixed. Mixing loses nothing: it goes back and forth
between two kinds of steps, each of which can be undone. A word combined with itself, moved to the
right, gives the word back from the highest bit down, as each bit is changed by a higher one
(`xorShift_injective`). A word times an odd number gives the word back times the inverse of that
number. So every word comes from exactly one state (`RandomStream.word_bijective`).
-/

set_option autoImplicit false

namespace ScriptHost

/-! ## Steps of the mixing -/

/-- Combined with itself moved to the right, a word can be told from any other one. -/
theorem xorShift_injective {width shift : Nat} (moved : 0 < shift) :
    Function.Injective fun z : BitVec width => z ^^^ (z >>> shift) := by
  intro x y same
  have bits : ∀ i, x.getLsbD i = y.getLsbD i := by
    intro i
    -- downwards: a bit is combined with one that is higher, or with none
    induction below : width - i using Nat.strong_induction_on generalizing i with
    | _ n ih =>
      by_cases inside : i < width
      · have higher : x.getLsbD (shift + i) = y.getLsbD (shift + i) :=
          ih (width - (shift + i)) (by omega) (shift + i) rfl
        have bit := congrArg (fun z : BitVec width => z.getLsbD i) same
        simpa only [BitVec.getLsbD_xor, BitVec.getLsbD_ushiftRight, higher, Bool.xor_left_inj]
          using bit
      · rw [BitVec.getLsbD_of_ge _ _ (by omega), BitVec.getLsbD_of_ge _ _ (by omega)]
  exact BitVec.eq_of_getLsbD_eq fun i _ => bits i

namespace RandomStream

theorem mix_xorShift_injective (shift : UInt64) (moved : 0 < shift.toNat % 64) :
    Function.Injective fun z : UInt64 => z ^^^ (z >>> shift) := by
  intro x y same
  apply UInt64.eq_of_toBitVec_eq
  apply xorShift_injective moved
  simpa using congrArg UInt64.toBitVec same

theorem mix_mul_injective (factor inverse : UInt64) (unit : factor * inverse = 1) :
    Function.Injective fun z : UInt64 => z * factor := by
  intro x y same
  have back : x * factor * inverse = y * factor * inverse := congrArg (· * inverse) same
  simpa only [UInt64.mul_assoc, unit, UInt64.mul_one] using back

/-! ## Mixing -/

theorem mix_injective : Function.Injective mix := by
  have first := (mix_mul_injective 0xBF58476D1CE4E5B9 0x96DE1B173F119089 (by decide)).comp
    (mix_xorShift_injective 30 (by decide))
  have second := (mix_mul_injective 0x94D049BB133111EB 0x319642B2D24D8EC3 (by decide)).comp
    (mix_xorShift_injective 27 (by decide))
  exact (mix_xorShift_injective 31 (by decide)).comp (second.comp first)

theorem mix_bijective : Function.Bijective mix := by
  have finite : Finite UInt64 := .of_injective _ UInt64.toFin_injective
  exact Finite.injective_iff_bijective.mp mix_injective

/-- **Every word comes from one state.** -/
theorem word_bijective : Function.Bijective word := by
  constructor
  · intro s t same
    have state : s.state + increment = t.state + increment := mix_injective same
    cases s
    cases t
    simpa using state
  · intro w
    obtain ⟨z, mixed⟩ := mix_bijective.surjective w
    refine ⟨⟨z - increment⟩, ?_⟩
    rw [word, advance, UInt64.sub_add_cancel, mixed]

end RandomStream

end ScriptHost
