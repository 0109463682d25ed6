import ScriptHost.Proofs.Host.Predicates

/-!
# Calls of the conversions

The library converts a scalar by one routine for each kind of scalar, and reads the number that a
text spells by one more. A call of such a routine makes one value, or fails as the conversion does,
and leaves the host as it is (`Host.call_converts`, `Host.call_numeralOf`). A host in which nothing
has changed still offers what it offered (`Host.Still.offers`), so conversions can follow one
another.
-/

set_option autoImplicit false

namespace ScriptHost

open HostM

namespace Host

variable {s t : Host} {r : Routine} {key : String} {v : Handle} {n : Nat}

/-- A host in which nothing has changed offers what it offered. -/
theorem Still.offers (still : s.Still t) (offered : s.Offers key r) : t.Offers key r := by
  obtain ⟨h, k, extended, rfl⟩ := still
  obtain ⟨v, found, provides⟩ := offered
  refine ⟨v, found, ?_⟩
  obtain ⟨e, c, held, has⟩ := provides
  have made : s.heap.Made v := Heap.made_of_kind (by simp [Heap.kind, held, Data.kind, Leaf.kind])
  have same : h.data v = s.heap.data v := Heap.data_congr (extended.cell v made)
  exact ⟨e, c, same.trans held, has⟩

/-- The call makes a value with the contents that have been found, or fails, and changes nothing. -/
def Answers (s : Host) (n : Nat) (key : String) (v : Handle) : Except Fault Leaf → Prop
  | .ok l => ∃ w t, call (.free n) key [v] s = .ok w t ∧ s.Still t ∧ t.heap.data w = .leaf l
  | .error f => ∃ t, call (.free n) key [v] s = .error (.fault f) t ∧ s.Still t

/-- A routine of one parameter that answers with what is found by its contents. -/
theorem answers_of_perform {found : Except Fault Leaf} (name : String) (offered : s.Offers key r)
    (ready : s.Ready 1) (takes : r.Takes [name]) (bare : unmark name = (false, name))
    (performs : ∀ u : Host, u.heap = s.heap → param name u = .ok v u →
      r.perform (.free n) u = (of found >>= fun l => Routine.answer l) u) :
    s.Answers (n + 1) key v found := by
  let inside := s.inCall [(name, v)]
  have given : param name inside = .ok v inside :=
    param_inCall bare (by simp [SymbolTable.ofNames, SymbolTable.get?, SymbolTable.find])
  have called := run_call (n := n) [v] offered takes rfl ready
  have performed : r.perform (.free n) inside = (of found >>= fun l => Routine.answer l) inside :=
    performs inside rfl given
  cases found with
  | ok l =>
    let h := s.heap.push ⟨.leaf l, false⟩
    have made : r.perform (.free n) inside =
        .ok ⟨s.heap.size⟩ (inside.grown h inside.env.stack.attained) := performed
    refine ⟨_, _, called.trans (always_left made), ⟨h, _, Heap.extends_push _ _, rfl⟩, ?_⟩
    show h.data _ = _
    rw [Heap.data, Heap.cell_push_new]
  | error f =>
    have failed : r.perform (.free n) inside =
        .error (.fault f) (inside.grown s.heap inside.env.stack.attained) := performed
    refine ⟨_, called.trans (always_of_error failed), s.heap,
      inside.env.stack.attained, .refl _, ?_⟩
    exact left_grown _ _ _ _

/-- **A conversion** of a value that is no array. -/
theorem call_converts {k : Kind} (offered : s.Offers key (.convert k)) (ready : s.Ready 1)
    (single : ∀ q, s.heap.data v ≠ .array q) :
    s.Answers (n + 1) key v ((s.heap.data v).convert k) := by
  apply answers_of_perform "value" offered ready ⟨rfl, by decide⟩ (by decide)
  intro u same given
  have cast : onHeap (HeapM.cast k v) u = (of ((s.heap.data v).convert k) >>=
      fun l => Routine.answer l) u := by
    have looked : HeapM.dataOf v u.heap = .ok (s.heap.data v) u.heap := by
      rw [HeapM.dataOf, HeapM.look, same]
    have single' : HeapM.cast k v u.heap = (HeapM.of ((s.heap.data v).convert k) >>=
        fun l => HeapM.newLeaf l) u.heap := by
      unfold HeapM.cast
      rw [HeapM.bind_of_ok looked]
      cases contents : s.heap.data v with
      | array q => exact absurd contents (single q)
      | _ => rfl
    rw [onHeap, single']
    cases (s.heap.data v).convert k <;> rfl
  simp only [Routine.perform, Bind.bind, EStateM.bind, given, cast]

/-- **The number that a text spells.** -/
theorem call_numeralOf {text : String} (offered : s.Offers key .numeralOf) (ready : s.Ready 1)
    (spelt : (s.heap.data v).asString = .ok text) : s.Answers (n + 1) key v (numeral text) := by
  apply answers_of_perform "str" offered ready ⟨rfl, by decide⟩ (by decide)
  intro u same given
  have read : onHeap (HeapM.asString v) u = .ok text u := by
    rw [HeapM.asString, onHeap_ask, same, spelt]
    rfl
  simp only [Routine.perform, Bind.bind, EStateM.bind, given, read]

end Host

end ScriptHost
