import Mathlib
import ScriptHost.Eval.Command
import ScriptHost.Proofs.Number.Mixing

/-!
# The period of the random stream

The state of a stream grows by a constant with each word. The constant is odd, so it has an inverse
modulo `2 ^ 64`, and the number of steps from one state to another can be solved for: it is the
distance of the states times that inverse (`advance_iterate`, `existsUnique_advance`). So a stream
comes through every state before it is back where it began. As every word comes from one state, its
words are then all words, each of them once: `full_period`.

Words are drawn from a host one after the other (`HostM.draws`), and what is drawn depends on
nothing but the stream (`Host.run_draws`). So a host that is given a seed goes on with the words of
that seed, whatever has been drawn before.
-/

set_option autoImplicit false

namespace ScriptHost

/-- So many draws of one kind, one after the other. -/
def HostM.draws {α : Type} (f : RandomStream → α) : Nat → HostM (List α)
  | 0 => return []
  | n + 1 => do
    let a ← Routine.draw f
    return a :: (← HostM.draws f n)

namespace RandomStream

variable {s t : RandomStream} {n : Nat}

/-- The next words of a stream. -/
def words (s : RandomStream) (n : Nat) : List UInt64 := (List.iterate advance s n).map word

/-! ## States -/

/-- The state after so many steps. -/
theorem advance_iterate (s : RandomStream) (n : Nat) :
    advance^[n] s = ⟨s.state + UInt64.ofNat n * increment⟩ := by
  induction n with
  | zero =>
    show s = ⟨s.state + UInt64.ofNat 0 * increment⟩
    simp
  | succ n ih =>
    rw [Function.iterate_succ_apply', ih, advance, UInt64.ofNat_add, UInt64.ofNat_one,
      UInt64.add_mul, UInt64.one_mul, UInt64.add_assoc]

/-- The inverse of the constant that states grow by. -/
def reciprocal : UInt64 := 0xF1DE83E19937733D

theorem increment_mul_reciprocal : increment * reciprocal = 1 := by decide

/-- So many steps lead from one state to another exactly if they are the distance of the states
divided by the constant. -/
theorem advance_iterate_eq_iff :
    advance^[n] s = t ↔ UInt64.ofNat n = (t.state - s.state) * reciprocal := by
  rw [advance_iterate]
  constructor
  · rintro rfl
    show UInt64.ofNat n = (s.state + UInt64.ofNat n * increment - s.state) * reciprocal
    rw [UInt64.add_comm, UInt64.add_sub_cancel, UInt64.mul_assoc, increment_mul_reciprocal,
      UInt64.mul_one]
  · intro steps
    cases t
    rw [steps, UInt64.mul_assoc, UInt64.mul_comm _ increment, increment_mul_reciprocal,
      UInt64.mul_one, UInt64.add_comm, UInt64.sub_add_cancel]

/-- **Every state is come through once.** -/
theorem existsUnique_advance (s t : RandomStream) : ∃! n, n < UInt64.size ∧ advance^[n] s = t := by
  refine ⟨((t.state - s.state) * reciprocal).toNat, ⟨UInt64.toNat_lt _, ?_⟩, ?_⟩
  · rw [advance_iterate_eq_iff, UInt64.ofNat_toNat]
  · rintro n ⟨small, reached⟩
    rw [← advance_iterate_eq_iff.mp reached, UInt64.toNat_ofNat_of_lt' small]

/-- The stream is back after its period. -/
theorem advance_period (s : RandomStream) : advance^[UInt64.size] s = s := by
  rw [advance_iterate, UInt64.ofNat_size, UInt64.zero_mul, UInt64.add_zero]

/-! ## Words -/

/-- No more words than the period, all of them different. -/
theorem nodup_words (short : n ≤ UInt64.size) : (s.words n).Nodup := by
  rw [words, ← List.range_map_iterate, List.map_map]
  refine List.Nodup.map_on ?_ List.nodup_range
  intro i before j after same
  have state : advance^[i] s = advance^[j] s := word_bijective.injective same
  have bound : ∀ k ∈ List.range n, k < UInt64.size :=
    fun k mem => (List.mem_range.mp mem).trans_le short
  exact (existsUnique_advance s (advance^[j] s)).unique ⟨bound i before, state⟩ ⟨bound j after, rfl⟩

/-- In a whole period every word comes up. -/
theorem mem_words_period (s : RandomStream) (w : UInt64) : w ∈ s.words UInt64.size := by
  obtain ⟨t, made⟩ := word_bijective.surjective w
  obtain ⟨n, ⟨small, reached⟩, -⟩ := existsUnique_advance s t
  rw [words, ← List.range_map_iterate, List.map_map]
  exact List.mem_map.mpr ⟨n, List.mem_range.mpr small, by rw [Function.comp_apply, reached, made]⟩

end RandomStream

open RandomStream

/-- **Draws** read off one state of the stream after the other. -/
theorem Host.run_draws {α : Type} (f : RandomStream → α) (s : Host) (n : Nat) :
    HostM.draws f n s = .ok ((List.iterate advance s.stream n).map f)
      { s with stream := advance^[n] s.stream } := by
  induction n generalizing s with
  | zero => rfl
  | succ n ih =>
    have rest := ih { s with stream := s.stream.advance }
    simp only [HostM.draws, Routine.draw, Bind.bind, EStateM.bind, rest]
    -- rewritten, as unfolding would count up to the constant
    rw [List.iterate, List.map_cons, Function.iterate_succ_apply]
    rfl

/-- **The whole period.** Mixing takes words to words one to one, and from every state the stream
comes to every other one, after less than `2 ^ 64` steps and in one way only. So `2 ^ 64` words that
are drawn one after the other are all words, each of them once, and the stream is back where it was.
Streams in different states differ in their next word. A host that is given a seed goes on with the
words of the stream of that seed. -/
theorem RandomStream.full_period (s : Host) :
    Function.Bijective mix ∧
    (∀ t : RandomStream, ∃! n, n < UInt64.size ∧ advance^[n] s.stream = t) ∧
    (∃ ws, HostM.draws word UInt64.size s = .ok ws s ∧ ws.Nodup ∧ ∀ w, w ∈ ws) ∧
    Function.Injective word ∧
    ∀ seed n, (do let _ ← (Draw.reseed seed).perform; HostM.draws word n) s =
      .ok ((ofSeed seed).words n) { s with stream := advance^[n] (ofSeed seed) } := by
  refine ⟨mix_bijective, existsUnique_advance s.stream, ?_, word_bijective.injective, ?_⟩
  · refine ⟨s.stream.words UInt64.size, ?_, nodup_words (Nat.le_refl _), mem_words_period s.stream⟩
    rw [s.run_draws word, advance_period, words]
  · intro seed n
    exact Host.run_draws word { s with stream := ofSeed seed } n

end ScriptHost
