import Mathlib
import ScriptHost.Eval.Operation
import ScriptHost.Proofs.Equality
import ScriptHost.Proofs.Number.Packing

/-!
# Dictionaries keep the order of insertion

What a dictionary answers follows from its history: which values have been put under which keys, and
which keys have been taken out. Under a key stands the value put there last, unless the key has been
taken out since (`valueAfter`). The keys are listed by the events that brought them in to stay, each
with the spelling it had then (`keysAfter`); putting another value under a key that is there is no
such event.

Two keys are the same when they are of one kind with one payload (`Key.Same`). Reals are told apart
by their bits, with the negative zero folded into zero; since that is done by adding zero, a
signaling NaN is taken for the quiet one that computing makes of it.

`Records` ties a dictionary to a history. Each change of the dictionary makes the history longer by
one event (`Records.insert`, `Records.erase`), so a sequence of calls keeps them tied
(`Calls.records`), whatever happens to other values in between, and every answer can be read off the
history (`calls_answered`).
-/

set_option autoImplicit false

namespace ScriptHost

/-! ## When two keys are the same -/

namespace Key

/-- Keys of one kind with one payload. Of reals it is the bits, as computing takes them and with the
zeros folded. -/
inductive Same : Key → Key → Prop where
  | boolean (b : Bool) : Same (.boolean b) (.boolean b)
  | integer (i : Integer) : Same (.integer i) (.integer i)
  | string (s : String) : Same (.string s) (.string s)
  | real {a b : Double} (bits : a.settled.foldedBits = b.settled.foldedBits) :
    Same (.real a) (.real b)

/-- Addition of zero quiets a NaN and folds the two zeros into one. -/
theorem realBits_eq (r : Double) : realBits r = r.settled.foldedBits := r.bits_add_zero

/-- The test of keys decides when they are the same. -/
theorem same_iff {j k : Key} : j.same k = true ↔ j.Same k := by
  constructor
  · intro same
    cases j <;> cases k <;>
      simp only [Key.same, beq_iff_eq, realBits_eq, Bool.false_eq_true] at same
    case boolean.boolean => exact same ▸ .boolean _
    case integer.integer => exact same ▸ .integer _
    case real.real => exact .real same
    case string.string => exact same ▸ .string _
  · intro same
    cases same with
    | real bits => simpa only [Key.same, beq_iff_eq, realBits_eq] using bits
    | boolean | integer | string => exact same_self _

/-- Reals other than signaling NaNs are the same key exactly if they have the same bits after
folding the zeros. -/
theorem same_real_iff {a b : Double} (left : a.isSignaling = false)
    (right : b.isSignaling = false) :
    (Key.real a).Same (.real b) ↔ a.foldedBits = b.foldedBits := by
  have bits : (Key.real a).Same (.real b) ↔ a.settled.foldedBits = b.settled.foldedBits :=
    ⟨fun | .real bits => bits, .real⟩
  rw [bits, Double.settled_of_not_signaling left, Double.settled_of_not_signaling right]

instance decidableSame (j k : Key) : Decidable (j.Same k) := decidable_of_iff _ same_iff

@[simp] theorem decide_same (j k : Key) : decide (j.Same k) = j.same k := by
  rw [Bool.eq_iff_iff, decide_eq_true_iff, same_iff]

/-- What is the same as one of two keys that are the same is the same as the other. -/
theorem same_congr {i j : Key} (same : i.same j = true) (k : Key) : i.same k = j.same k := by
  rw [Bool.eq_iff_iff]
  constructor
  · rw [same_symm] at same
    exact same_trans same
  · exact same_trans same

end Key

namespace Dictionary

variable {ρ : Type} {d : Dictionary ρ} {k : Key} {v : ρ}

/-! ## What a change does to the values and to the keys -/

/-- What is put in is found under its own key, and under no other. -/
theorem get?_insert (d : Dictionary ρ) (j k : Key) (v : ρ) :
    (d.insert j v).get? k = if j.same k then some v else d.get? k := by
  obtain ⟨es⟩ := d
  simp only [insert, get?]
  induction es with
  | nil => simp [put, find]
  | cons p es ih =>
    by_cases here : p.1.same j = true
    · simp only [put, here, if_true, find, Key.same_congr here]
      split <;> rfl
    · simp only [put, here, Bool.false_eq_true, if_false, find, ih]
      by_cases first : p.1.same k = true
      · have other : ¬ j.same k = true := by
          rwa [Key.same_symm, ← Key.same_congr first]
        simp [first, other]
      · simp [first]

/-- A key that is there keeps its place; a new one stands last. -/
theorem keys_insert (d : Dictionary ρ) (k : Key) (v : ρ) :
    (d.insert k v).keys = if (d.get? k).isSome then d.keys else d.keys ++ [k] := by
  obtain ⟨es⟩ := d
  simp only [insert, get?, keys]
  induction es with
  | nil => simp [put, find]
  | cons p es ih =>
    by_cases here : p.1.same k = true
    · simp [put, find, here]
    · simp only [put, find, here, Bool.false_eq_true, if_false, List.map_cons, ih]
      exact apply_ite (p.1 :: ·) _ _ _

/-- With distinct keys, the entries without one key are those with other keys, in order. -/
theorem drop_eq_filter {es : List (Key × ρ)}
    (distinct : es.Pairwise fun a b => a.1.same b.1 = false) (k : Key) :
    drop k es = es.filter fun p => !p.1.same k := by
  induction es with
  | nil => rfl
  | cons p es ih =>
    obtain ⟨first, rest⟩ := List.pairwise_cons.mp distinct
    by_cases here : p.1.same k = true
    · have others : ∀ q ∈ es, (!q.1.same k) = true := by
        intro q mem
        rw [Key.same_symm, ← Key.same_congr here, first q mem]
        rfl
      simp [drop, here, List.filter_eq_self.mpr others]
    · simp [drop, here, ih rest]

/-- A key that is taken leaves the others in order. -/
theorem keys_erase (distinct : d.Distinct) (k : Key) :
    (d.erase k).keys = d.keys.filter fun j => !j.same k := by
  simp only [erase, keys, drop_eq_filter distinct, List.filter_map]
  rfl

/-- What is taken is gone, and nothing else. -/
theorem get?_erase (distinct : d.Distinct) (j k : Key) :
    (d.erase j).get? k = if j.same k then none else d.get? k := by
  obtain ⟨es⟩ := d
  simp only [erase, get?, drop_eq_filter distinct]
  clear distinct
  induction es with
  | nil => simp [find]
  | cons p es ih =>
    by_cases here : p.1.same j = true
    · simp only [here, Bool.not_true, Bool.false_eq_true, not_false_iff,
        List.filter_cons_of_neg, find, ih, Key.same_congr here]
      split <;> rfl
    · rw [List.filter_cons_of_pos (by simpa using here)]
      simp only [find, ih]
      by_cases first : p.1.same k = true
      · have other : ¬ j.same k = true := by
          rwa [Key.same_symm, ← Key.same_congr first]
        simp [first, other]
      · simp [first]

/-! ## Histories -/

/-- A change of a dictionary: a value is put under a key, or the entry under a key is taken out. -/
inductive Event where
  | put (k : Key) (v : Handle)
  | take (k : Key)

namespace Event

/-- The key that an event is about. -/
def key : Event → Key
  | .put k _ => k
  | .take k => k

/-- What stands under the key after the event. -/
def value? : Event → Option Handle
  | .put _ v => some v
  | .take _ => none

/-- Whether an event takes a key out. -/
def takes (k : Key) : Event → Bool
  | .put _ _ => false
  | .take j => decide (j.Same k)

end Event

/-- The value put last under a key, unless the key has been taken out since. -/
def valueAfter (es : List Event) (k : Key) : Option Handle :=
  ((es.filter fun e => e.key.Same k).getLast?).bind Event.value?

/-- The key that an event brings in to stay: it was not there before, and is not taken out later
on. -/
def keyFrom (es : List Event) (i : Nat) : Option Key :=
  match es[i]? with
  | some (.put k _) =>
    if (valueAfter (es.take i) k).isNone && !(es.drop (i + 1)).any (·.takes k) then some k else none
  | _ => none

/-- The keys that are there, in the order of the events that brought them in and as they were
spelled then. -/
def keysAfter (es : List Event) : List Key := (List.range es.length).filterMap (keyFrom es)

section History

variable {es : List Event} {e : Event}

/-- The last event decides about its own key. -/
theorem valueAfter_snoc (es : List Event) (e : Event) (k : Key) :
    valueAfter (es ++ [e]) k = if e.key.same k then e.value? else valueAfter es k := by
  simp only [valueAfter, List.filter_append, Key.decide_same]
  cases same : e.key.same k <;> simp [same]

/-- An earlier key stays unless the last event takes it out. -/
theorem keyFrom_snoc_of_lt {i : Nat} (earlier : i < es.length) :
    keyFrom (es ++ [e]) i = (keyFrom es i).filter fun k => !e.takes k := by
  simp only [keyFrom, List.getElem?_append_left earlier, List.take_append_of_le_length earlier.le,
    List.drop_append_of_le_length (show i + 1 ≤ es.length from earlier), List.any_append,
    List.any_cons, List.any_nil,
    Bool.or_false]
  cases es[i]? with
  | none => rfl
  | some first =>
    cases first with
    | take k => rfl
    | put k v =>
      simp only
      generalize (valueAfter (es.take i) k).isNone = new
      generalize (es.drop (i + 1)).any (Event.takes k) = gone
      cases taken : e.takes k <;> cases new <;> cases gone <;> simp [Option.filter, taken]

/-- A key comes in with the event that puts it where it was not. -/
theorem keyFrom_put (es : List Event) (k : Key) (v : Handle) :
    keyFrom (es ++ [.put k v]) es.length = if (valueAfter es k).isSome then none else some k := by
  have last : (es ++ [Event.put k v])[es.length]? = some (.put k v) := List.getElem?_concat_length
  simp only [keyFrom, last, List.take_left, List.drop_eq_nil_of_le, List.length_append,
    List.length_singleton, Nat.le_refl, List.any_nil]
  cases valueAfter es k <;> rfl

theorem keyFrom_take (es : List Event) (k : Key) : keyFrom (es ++ [.take k]) es.length = none := by
  have last : (es ++ [Event.take k])[es.length]? = some (.take k) := List.getElem?_concat_length
  simp only [keyFrom, last]

/-- One more event: its key goes, or comes last, or stays. -/
theorem keysAfter_snoc (es : List Event) (e : Event) :
    keysAfter (es ++ [e]) = (keysAfter es).filter (fun k => !e.takes k) ++
      (keyFrom (es ++ [e]) es.length).toList := by
  have earlier : (List.range es.length).filterMap (keyFrom (es ++ [e])) =
      (List.range es.length).filterMap fun i => (keyFrom es i).filter fun k => !e.takes k :=
    List.filterMap_congr fun i inside => keyFrom_snoc_of_lt (List.mem_range.mp inside)
  rw [keysAfter, keysAfter, List.length_append, List.length_singleton, List.range_succ,
    List.filterMap_append, earlier, List.filter_filterMap, List.filterMap_cons, List.filterMap_nil]
  cases keyFrom (es ++ [e]) es.length <;> rfl

/-- A key that is there keeps its place and its spelling; a new one comes last. -/
theorem keysAfter_put (es : List Event) (k : Key) (v : Handle) :
    keysAfter (es ++ [.put k v]) = if (valueAfter es k).isSome then keysAfter es
      else keysAfter es ++ [k] := by
  have all : (keysAfter es).filter (fun j => !(Event.put k v).takes j) = keysAfter es :=
    List.filter_eq_self.mpr fun _ _ => rfl
  rw [keysAfter_snoc, keyFrom_put, all]
  cases valueAfter es k with
  | some w => simp
  | none => rfl

/-- The other keys keep their order. -/
theorem keysAfter_take (es : List Event) (k : Key) :
    keysAfter (es ++ [.take k]) = (keysAfter es).filter fun j => !decide (k.Same j) := by
  rw [keysAfter_snoc, keyFrom_take, Option.toList_none, List.append_nil]
  rfl

end History

/-! ## A dictionary and its history -/

/-- The dictionary is what a history leaves. -/
structure Records (d : Dictionary Handle) (es : List Event) : Prop where
  distinct : d.Distinct
  value : ∀ k, d.get? k = valueAfter es k
  keys : d.keys = keysAfter es

namespace Records

variable {d : Dictionary Handle} {es : List Event}

/-- An insertion is recorded as one more event. -/
theorem insert (recorded : d.Records es) (k : Key) (v : Handle) :
    (d.insert k v).Records (es ++ [.put k v]) where
  distinct := recorded.distinct.insert k v
  value j := by
    rw [get?_insert, valueAfter_snoc, recorded.value]
    rfl
  keys := by rw [keys_insert, keysAfter_put, recorded.value, recorded.keys]

/-- A removal is recorded as one more event. -/
theorem erase (recorded : d.Records es) (k : Key) : (d.erase k).Records (es ++ [.take k]) where
  distinct := recorded.distinct.erase k
  value j := by
    rw [get?_erase recorded.distinct, valueAfter_snoc, recorded.value]
    rfl
  keys := by
    rw [keys_erase recorded.distinct, keysAfter_take, recorded.keys]
    simp only [Key.decide_same, Key.same_symm k]

/-- Putting under a key what stands there is no change. -/
theorem again {k : Key} {v : Handle} (recorded : d.Records es) (found : d.get? k = some v) :
    d.Records (es ++ [.put k v]) where
  distinct := recorded.distinct
  value j := by
    rw [valueAfter_snoc]
    split
    next same =>
      rw [← get?_congr d same]
      exact found
    next => exact recorded.value j
  keys := by
    rw [keysAfter_put, ← recorded.value, found]
    exact recorded.keys

end Records

/-- The history of a dictionary that has been filled in order. -/
def history (d : Dictionary Handle) : List Event := d.entries.map fun p => .put p.1 p.2

theorem put_of_absent {ρ : Type} {es : List (Key × ρ)} {k : Key}
    (absent : ∀ p ∈ es, p.1.same k = false) (v : ρ) : put k v es = es ++ [(k, v)] := by
  induction es with
  | nil => rfl
  | cons p es ih =>
    have rest := ih fun q mem => absent q (List.mem_cons_of_mem _ mem)
    simp [put, absent p (List.mem_cons_self ..), rest]

/-- A dictionary with different keys records its own entries, put in one by one. -/
theorem records_history {d : Dictionary Handle} (distinct : d.Distinct) : d.Records d.history := by
  obtain ⟨es⟩ := d
  induction es using List.reverseRecOn with
  | nil => exact ⟨distinct, fun _ => rfl, rfl⟩
  | append_singleton es p ih =>
    obtain ⟨first, -, last⟩ := List.pairwise_append.mp distinct
    have before := (ih first).insert p.1 p.2
    have absent : ∀ q ∈ es, q.1.same p.1 = false :=
      fun q mem => last q mem p (List.mem_singleton_self _)
    rw [Dictionary.insert, put_of_absent absent] at before
    have longer : history ⟨es ++ [p]⟩ = history ⟨es⟩ ++ [.put p.1 p.2] := by simp [history]
    rw [longer]
    exact before

end Dictionary

/-! ## Calls on a dictionary -/

namespace HeapM

open Dictionary

variable {h : Heap} {target key value v : Handle} {d : Dictionary Handle} {k : Key}

theorem ask_key (scalar : (h.data key).asKey = .ok k) :
    ask (fun h => (h.data key).asKey) h = .ok k h := by
  simp only [ask, scalar]

theorem made_dictionary (held : h.cell target = ⟨.dictionary d, false⟩) : h.Made target :=
  Heap.made_of_unlocked (by rw [Heap.isLocked, held])

theorem data_dictionary (held : h.cell target = ⟨.dictionary d, false⟩) :
    h.data target = .dictionary d := by
  rw [Heap.data, held]

theorem dataOf_dictionary (held : h.cell target = ⟨.dictionary d, false⟩) :
    dataOf target h = .ok (.dictionary d) h := by
  rw [dataOf, look, data_dictionary held]

theorem writable_dictionary (held : h.cell target = ⟨.dictionary d, false⟩) :
    writable target h = .ok (.dictionary d) h := by
  rw [writable_of_unlocked (by rw [Heap.isLocked, held]), data_dictionary held]

theorem write_dictionary (held : h.cell target = ⟨.dictionary d, false⟩) (e : Data Handle) :
    write target e h = .ok () (h.setCell target ⟨e, false⟩) := by
  simp [write, Heap.isLocked, held]

/-- An insertion that does not close a cycle succeeds. -/
theorem run_insertKey (held : h.cell target = ⟨.dictionary d, false⟩)
    (scalar : (h.data key).asKey = .ok k) (away : ¬ h.Reaches value target) :
    insertKey target key value h =
      .ok () (h.setCell target ⟨.dictionary (d.insert k value), false⟩) := by
  apply (bind_of_ok (ask_key scalar) _).trans
  apply (bind_of_ok (rejectCycle_of_not_reaches away) _).trans
  apply (bind_of_ok (writable_dictionary held) _).trans
  exact write_dictionary held _

/-- One that closes a cycle is refused, and changes nothing. -/
theorem insertKey_of_reaches (scalar : (h.data key).asKey = .ok k)
    (reach : h.Reaches value target) : insertKey target key value h = .error .containsItself h := by
  apply (bind_of_ok (ask_key scalar) _).trans
  exact bind_of_error (rejectCycle_of_reaches reach) _

/-- A removal yields what was there. -/
theorem run_removeKey (held : h.cell target = ⟨.dictionary d, false⟩)
    (scalar : (h.data key).asKey = .ok k) :
    removeKey target key h =
      .ok (d.get? k) (h.setCell target ⟨.dictionary (d.erase k), false⟩) := by
  apply (bind_of_ok (ask_key scalar) _).trans
  apply (bind_of_ok (writable_dictionary held) _).trans
  exact bind_of_ok (write_dictionary held _) _

theorem run_getKey (held : h.cell target = ⟨.dictionary d, false⟩)
    (scalar : (h.data key).asKey = .ok k) : getKey target key h = .ok (d.get? k) h := by
  apply (bind_of_ok (ask_key scalar) _).trans
  apply (bind_of_ok (dataOf_dictionary held) _).trans
  rfl

theorem run_length (held : h.cell target = ⟨.dictionary d, false⟩) :
    length target h = .ok d.length h := by
  simp only [length, ask, data_dictionary held]

/-- An element that is there is found, and nothing changes. -/
theorem element_of_some (held : h.cell target = ⟨.dictionary d, false⟩)
    (scalar : (h.data key).asKey = .ok k) (found : d.get? k = some v) :
    element target key h = .ok v h := by
  apply (bind_of_ok (dataOf_dictionary held) _).trans
  apply (bind_of_ok (ask_key scalar) _).trans
  rw [found]
  rfl

/-- An element that is not there is made. -/
theorem element_of_none (held : h.cell target = ⟨.dictionary d, false⟩)
    (scalar : (h.data key).asKey = .ok k) (missing : d.get? k = none) :
    element target key h =
      .ok ⟨h.size⟩ ((h.push ⟨.leaf .null, false⟩).setCell target
        ⟨.dictionary (d.insert k ⟨h.size⟩), false⟩) := by
  have later : (h.push ⟨.leaf .null, false⟩).cell target = ⟨.dictionary d, false⟩ := by
    rw [Heap.cell_push_old _ _ (made_dictionary held), held]
  apply (bind_of_ok (dataOf_dictionary held) _).trans
  apply (bind_of_ok (ask_key scalar) _).trans
  rw [missing]
  apply (bind_of_ok (writable_dictionary held) _).trans
  apply (bind_of_ok (show newLeaf .null h = .ok ⟨h.size⟩ (h.push ⟨.leaf .null, false⟩)
    from rfl) _).trans
  exact bind_of_ok (write_dictionary later _) _

/-- Scalars are made one after the other, in new cells. -/
theorem run_newLeaves (ls : List Leaf) (h : Heap) :
    ∃ vs h', ls.mapM newLeaf h = .ok vs h' ∧ h.Extends h' ∧
      List.Forall₂ (fun l v => ¬ h.Made v ∧ h'.cell v = ⟨.leaf l, false⟩) ls vs := by
  induction ls generalizing h with
  | nil => exact ⟨[], h, rfl, .refl h, .nil⟩
  | cons l ls ih =>
    obtain ⟨vs, h', run, extended, each⟩ := ih (h.push ⟨.leaf l, false⟩)
    have first : newLeaf l h = .ok ⟨h.size⟩ (h.push ⟨.leaf l, false⟩) := rfl
    refine ⟨⟨h.size⟩ :: vs, h', ?_, (Heap.extends_push h _).trans extended,
      .cons ⟨h.not_made_next, ?_⟩ ?_⟩
    · rw [List.mapM_cons]
      apply (bind_of_ok first _).trans
      exact bind_of_ok run _
    · rw [extended.cell _ (Heap.made_push.mpr (.inr rfl)), Heap.cell_push_new]
    · exact each.imp fun _ _ made => ⟨fun old => made.1 (Heap.made_push.mpr (.inl old)), made.2⟩

/-- The keys are listed as new values, in order. -/
theorem run_keys (held : h.cell target = ⟨.dictionary d, false⟩) :
    ∃ vs h', keys target h = .ok vs h' ∧ h.Extends h' ∧
      List.Forall₂ (fun k v => ¬ h.Made v ∧ h'.cell v = ⟨.leaf k.toLeaf, false⟩) d.keys vs := by
  obtain ⟨vs, h', run, extended, each⟩ := run_newLeaves (d.keys.map Key.toLeaf) h
  refine ⟨vs, h', ?_, extended, List.forall₂_map_left_iff.mp each⟩
  rw [List.mapM_map] at run
  exact (bind_of_ok (dataOf_dictionary held) _).trans run

end HeapM

namespace Dictionary

open HeapM

/-- A sequence of calls on a dictionary with what they put into it and took out of it, first to
last. A call that only looks, or is refused, and whatever happens to other values in between, comes
under `aside`. -/
inductive Calls (target : Handle) (h : Heap) : List Event → Heap → Prop where
  | none : Calls target h [] h
  | insertKey {es : List Event} {u w : Heap} {key value : Handle} {k : Key}
    (before : Calls target h es u)
    (scalar : (u.data key).asKey = .ok k) (run : HeapM.insertKey target key value u = .ok () w) :
    Calls target h (es ++ [.put k value]) w
  | element {es : List Event} {u w : Heap} {key v : Handle} {k : Key} (before : Calls target h es u)
    (scalar : (u.data key).asKey = .ok k) (run : HeapM.element target key u = .ok v w) :
    Calls target h (es ++ [.put k v]) w
  | removeKey {es : List Event} {u w : Heap} {key : Handle} {k : Key} {v : Option Handle}
    (before : Calls target h es u)
    (scalar : (u.data key).asKey = .ok k) (run : HeapM.removeKey target key u = .ok v w) :
    Calls target h (es ++ [.take k]) w
  | aside {es : List Event} {u w : Heap} (before : Calls target h es u)
    (kept : w.cell target = u.cell target) : Calls target h es w

/-- What every call on a dictionary with the given history answers, and what it changes. -/
structure Answers (target : Handle) (es : List Event) (h : Heap) : Prop where
  apart : (keysAfter es).Pairwise fun j k => ¬ j.Same k
  getKey : ∀ {key k}, (h.data key).asKey = .ok k →
    HeapM.getKey target key h = .ok (valueAfter es k) h
  containsKey : ∀ {s : Host} {key k}, s.heap = h → (h.data key).asKey = .ok k →
    Binary.containsKey.perform target key s = .ok (.report (.flag (valueAfter es k).isSome)) s
  keys : ∃ vs h', HeapM.keys target h = .ok vs h' ∧ h.Extends h' ∧
    List.Forall₂ (fun k v => ¬ h.Made v ∧ h'.cell v = ⟨.leaf k.toLeaf, false⟩) (keysAfter es) vs
  length : HeapM.length target h = .ok (keysAfter es).length h
  /-- An element that is there is answered, and nothing changes. -/
  present : ∀ {key k v}, (h.data key).asKey = .ok k → valueAfter es k = some v →
    HeapM.element target key h = .ok v h
  /-- An element that is not there is made as an unlocked Null, and nothing else changes but the
  dictionary. -/
  absent : ∀ {key k}, (h.data key).asKey = .ok k → valueAfter es k = none →
    ∃ h', HeapM.element target key h = .ok ⟨h.size⟩ h' ∧ h'.cell ⟨h.size⟩ = ⟨.leaf .null, false⟩ ∧
      ∀ v, h.Made v → v ≠ target → h'.cell v = h.cell v
  insertKey : ∀ {key k value}, (h.data key).asKey = .ok k → ¬ h.Reaches value target →
    ∃ h', HeapM.insertKey target key value h = .ok () h' ∧ ∀ v, v ≠ target → h'.cell v = h.cell v
  /-- The dictionary is not put into itself. -/
  refused : ∀ {key k value}, (h.data key).asKey = .ok k → h.Reaches value target →
    HeapM.insertKey target key value h = .error .containsItself h
  removeKey : ∀ {key k}, (h.data key).asKey = .ok k →
    ∃ h', HeapM.removeKey target key h = .ok (valueAfter es k) h' ∧ ∀ v, v ≠ target →
    h'.cell v = h.cell v

variable {target : Handle} {es : List Event} {h h' : Heap} {d : Dictionary Handle}

/-- A recorded dictionary answers by its history. -/
theorem Records.answers (recorded : d.Records es) (held : h.cell target = ⟨.dictionary d, false⟩) :
    Answers target es h where
  apart := by
    rw [← recorded.keys]
    exact recorded.distinct.apart.imp fun apart same => by simp [Key.same_iff.mpr same] at apart
  getKey scalar := by rw [run_getKey held scalar, recorded.value]
  containsKey heap scalar := by
    subst heap
    rw [← recorded.value]
    simp only [Binary.perform, HostM.heapReport, Bind.bind, EStateM.bind, HostM.onHeap,
      run_getKey held scalar]
    rfl
  keys := by
    rw [← recorded.keys]
    exact run_keys held
  length := by rw [run_length held, length_eq_keys, recorded.keys]
  present scalar found := element_of_some held scalar (by rw [recorded.value, found])
  absent scalar missing := by
    have new : (⟨h.size⟩ : Handle) ≠ target :=
      fun same => h.not_made_next (same ▸ made_dictionary held)
    refine ⟨_, element_of_none held scalar (by rw [recorded.value, missing]), ?_, ?_⟩
    · rw [Heap.cell_setCell_ne _ _ new, Heap.cell_push_new]
    · intro v made other
      rw [Heap.cell_setCell_ne _ _ other, Heap.cell_push_old _ _ made]
  insertKey scalar away :=
    ⟨_, run_insertKey held scalar away, fun v other => Heap.cell_setCell_ne h _ other⟩
  refused scalar reach := insertKey_of_reaches scalar reach
  removeKey scalar := by
    rw [← recorded.value]
    exact ⟨_, run_removeKey held scalar, fun v other => Heap.cell_setCell_ne h _ other⟩

theorem cell_dictionary (held : h.cell target = ⟨.dictionary d, false⟩) (e : Dictionary Handle) :
    (h.setCell target ⟨.dictionary e, false⟩).cell target = ⟨.dictionary e, false⟩ :=
  Heap.cell_setCell_self h target _ (made_dictionary held)

/-- **Calls** one after another leave the dictionary that their history leaves. -/
theorem Calls.records (calls : Calls target h es h') (held : h.cell target = ⟨.dictionary d, false⟩)
    (distinct : d.Distinct) :
    ∃ d', h'.cell target = ⟨.dictionary d', false⟩ ∧ d'.Records (d.history ++ es) := by
  induction calls with
  | none => exact ⟨d, held, by simpa using records_history distinct⟩
  | @insertKey es u w key value k _ scalar run ih =>
    obtain ⟨d', held, recorded⟩ := ih
    by_cases reach : u.Reaches value target
    · rw [insertKey_of_reaches scalar reach] at run
      cases run
    · rw [run_insertKey held scalar reach] at run
      cases run
      rw [← List.append_assoc]
      exact ⟨d'.insert k value, cell_dictionary held _, recorded.insert k value⟩
  | @element es u w key v k _ scalar run ih =>
    obtain ⟨d', held, recorded⟩ := ih
    rw [← List.append_assoc]
    cases found : d'.get? k with
    | some x =>
      rw [element_of_some held scalar found] at run
      cases run
      exact ⟨d', held, recorded.again found⟩
    | none =>
      rw [element_of_none held scalar found] at run
      cases run
      have later : (u.push ⟨.leaf .null, false⟩).cell target = ⟨.dictionary d', false⟩ := by
        rw [Heap.cell_push_old _ _ (made_dictionary held), held]
      exact ⟨_, cell_dictionary later _, recorded.insert k _⟩
  | @removeKey es u w key k v _ scalar run ih =>
    obtain ⟨d', held, recorded⟩ := ih
    rw [run_removeKey held scalar] at run
    cases run
    rw [← List.append_assoc]
    exact ⟨d'.erase k, cell_dictionary held _, recorded.erase k⟩
  | aside _ kept ih =>
    obtain ⟨d', held, recorded⟩ := ih
    exact ⟨d', kept.trans held, recorded⟩

/-- **Dictionaries are maps in the order of insertion.** Start with an unlocked dictionary of a
reachable host and make any calls with scalar keys. What every further call answers is then
determined by what has been put in and taken out: under each key the value put there last since the
key was last taken out, and the keys, of which no two are the same, in the order in which they first
came in since then and as they were spelled then. Putting another value under a key that is there
changes neither its place nor its spelling, and taking a key out keeps the order of the rest. Real
keys are the same exactly if they have the same bits, with the negative zero folded into zero,
unless one of them is a signaling NaN. -/
theorem calls_answered {s : Host} (reachable : s.Reachable)
    (held : s.heap.cell target = ⟨.dictionary d, false⟩) (calls : Calls target s.heap es h) :
    Answers target (d.history ++ es) h ∧
      (∀ k v, keysAfter (d.history ++ es ++ [.put k v]) =
        if (valueAfter (d.history ++ es) k).isSome then keysAfter (d.history ++ es)
          else keysAfter (d.history ++ es) ++ [k]) ∧
      (∀ k, keysAfter (d.history ++ es ++ [.take k]) = (keysAfter (d.history ++ es)).filter
        fun j => !decide (k.Same j)) ∧
      ∀ a b : Double, a.isSignaling = false → b.isSignaling = false →
        ((Key.real a).Same (.real b) ↔ a.foldedBits = b.foldedBits) := by
  have distinct : d.Distinct := (reachable.distinct target).keys d (data_dictionary held)
  obtain ⟨d', held', recorded⟩ := calls.records held distinct
  exact ⟨recorded.answers held', keysAfter_put _, keysAfter_take _, fun _ _ => Key.same_real_iff⟩

/-- A real is put into the dictionary under itself. -/
theorem Calls.put {u : Heap} {v : Handle} {r : Double} (calls : Calls target h es u)
    (held : h.cell target = ⟨.dictionary d, false⟩) (distinct : d.Distinct)
    (real : u.data v = .leaf (.real r .none)) (other : v ≠ target) :
    ∃ w, Calls target h (es ++ [.put (.real r) v]) w ∧ ∀ v, v ≠ target → w.data v = u.data v := by
  obtain ⟨d', held', recorded⟩ := calls.records held distinct
  have scalar : (u.data v).asKey = .ok (.real r) := by rw [real]; rfl
  have away : ¬ u.Reaches v target := by
    intro reach
    cases reach with
    | refl => exact other rfl
    | step part _ => simp [Heap.parts, real, Data.parts] at part
  obtain ⟨w, run, kept⟩ := (recorded.answers held').insertKey scalar away
  exact ⟨w, .insertKey calls scalar run, fun v other => Heap.data_congr (kept v other)⟩

/-- A new dictionary and two reals. -/
def twoReals (a b : Double) : Host :=
  Session.after (.bare .default)
    [.hold "entries" (.dictionary []), .hold "first" (.literal (.real a)),
      .hold "second" (.literal (.real b))]

theorem reachable_twoReals (a b : Double) : (twoReals a b).Reachable :=
  Host.reachable_after ⟨.default, true, [], none⟩ _

/-- Two insertions under the keys of two reals, which are the first values of the host. -/
theorem calls_twoReals (a b : Double) :
    ∃ h, Calls ⟨0⟩ (twoReals a b).heap [.put (.real a) ⟨1⟩, .put (.real b) ⟨2⟩] h ∧
      (h.data ⟨1⟩).asKey = .ok (.real a) := by
  obtain ⟨held, first, second⟩ : (twoReals a b).heap.cell ⟨0⟩ = ⟨.dictionary ⟨[]⟩, false⟩ ∧
      (twoReals a b).heap.data ⟨1⟩ = .leaf (.real a none) ∧
      (twoReals a b).heap.data ⟨2⟩ = .leaf (.real b none) :=
    ⟨rfl, rfl, rfl⟩
  obtain ⟨u, once, kept⟩ := Calls.none.put held .nil first (by decide)
  obtain ⟨h, twice, still⟩ := once.put held .nil ((kept ⟨2⟩ (by decide)).trans second) (by decide)
  refine ⟨h, twice, ?_⟩
  rw [still ⟨1⟩ (by decide), kept ⟨1⟩ (by decide), first]
  rfl

/-- Two values put under one key leave the key as it was spelled at first, and the second value. -/
theorem after_again {j k : Key} (same : j.same k = true) (v w : Handle) :
    keysAfter [.put j v, .put k w] = [j] ∧ valueAfter [.put j v, .put k w] j = some w := by
  have present : valueAfter [.put j v] k = some v := (valueAfter_snoc [] _ k).trans (if_pos same)
  have once : keysAfter [.put j v] = [j] := keysAfter_put [] j v
  have twice := keysAfter_put [.put j v] k w
  rw [present, Option.isSome_some, if_pos rfl, once] at twice
  rw [Key.same_symm] at same
  exact ⟨twice, (valueAfter_snoc [.put j v] _ j).trans (if_pos same)⟩

/-- A value is put under the negative zero and then another one under zero: there is one key,
spelled as at first. -/
theorem calls_answered_zeros :
    let minus : Double := ⟨0x8000000000000000⟩
    ∃ h, Calls ⟨0⟩ (twoReals minus 0).heap [.put (.real minus) ⟨1⟩, .put (.real 0) ⟨2⟩] h ∧
      HeapM.getKey ⟨0⟩ ⟨1⟩ h = .ok (some ⟨2⟩) h ∧ HeapM.length ⟨0⟩ h = .ok 1 h ∧
      (∃ v h', HeapM.keys ⟨0⟩ h = .ok [v] h' ∧ h'.cell v = ⟨.leaf (.real minus none), false⟩) ∧
      minus.foldedBits = (0 : Double).foldedBits := by
  intro minus
  have same : (Key.real minus).same (.real 0) = true := by decide
  obtain ⟨h, calls, first⟩ := calls_twoReals minus 0
  obtain ⟨after, -, -, rule⟩ := calls_answered (reachable_twoReals minus 0) rfl calls
  obtain ⟨keys, value⟩ := after_again same ⟨1⟩ ⟨2⟩
  obtain ⟨vs, h', run, -, each⟩ := after.keys
  refine ⟨h, calls, ?_, ?_, ?_, (rule minus 0 (by decide) (by decide)).mp (Key.same_iff.mp same)⟩
  · rw [← value]
    exact after.getKey first
  · rw [← List.length_singleton, ← keys]
    exact after.length
  · change List.Forall₂ _ (keysAfter [.put (.real minus) ⟨1⟩, .put (.real 0) ⟨2⟩]) vs at each
    rw [keys] at each
    cases each with
    | cons made rest =>
      cases rest
      exact ⟨_, h', run, made.2⟩

/-- A signaling NaN and the quiet one that computing makes of it have different bits, and are one
key. -/
theorem keys_merged_signaling :
    let signaling : Double := ⟨0x7ff0000000000001⟩
    let quiet : Double := ⟨0x7ff8000000000001⟩
    signaling.foldedBits ≠ quiet.foldedBits ∧
      ∃ h, Calls ⟨0⟩ (twoReals signaling quiet).heap [.put (.real signaling) ⟨1⟩,
        .put (.real quiet) ⟨2⟩] h ∧ HeapM.length ⟨0⟩ h = .ok 1 h := by
  intro signaling quiet
  have same : (Key.real signaling).same (.real quiet) = true := by decide
  obtain ⟨h, calls, -⟩ := calls_twoReals signaling quiet
  obtain ⟨d, held, recorded⟩ := calls.records (d := ⟨[]⟩) rfl .nil
  refine ⟨by decide, h, calls, ?_⟩
  rw [← List.length_singleton, ← (after_again same ⟨1⟩ ⟨2⟩).1]
  exact (recorded.answers held).length

end Dictionary

end ScriptHost
