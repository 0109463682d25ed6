import Mathlib
import ScriptHost.Proofs.Heap.Walk
import ScriptHost.Proofs.Host.Distinct

/-!
# Exact equality

`Heap.exactlyEqual` is an equivalence on the values of every reachable heap, whatever they hold and
share, and values that are exactly equal are alike up to rounding error as well
(`exactlyEqual_equivalence`). Dictionaries are exactly equal if they have the same keys, in whatever
order, with exactly equal values under them.

`Data.Equal` says when contents are equal, given how their parts compare. Each property of the
equality of values follows from the same property of `Data.Equal`, by induction on the levels that
are compared. Only the symmetry of dictionaries is more than a case analysis: the comparison looks
up the keys of one dictionary in the other. It takes that the keys of each are distinct, so that as
many keys, all found, are all the keys there are (`Key.exists_same`).

A NaN is not equal to itself, but the value that holds it is: a value is compared with itself by
identity, at every level.
-/

set_option autoImplicit false

namespace ScriptHost

/-! ## Related lists and options -/

section Related

variable {α : Type} {R S : α → α → Prop}

/-- Related lists are related through a third one. -/
theorem forall₂_trans (trans : ∀ a b c, R a b → R b c → R a c) {l m n : List α}
    (first : List.Forall₂ R l m) (second : List.Forall₂ R m n) : List.Forall₂ R l n := by
  induction first generalizing n with
  | nil => exact second
  | cons one _ ih =>
    cases second with
    | cons two rest => exact .cons (trans _ _ _ one two) (ih rest)

variable {x y z : Option α}

theorem option_isSome (rel : Option.Rel R x y) : x.isSome = y.isSome := by cases rel <;> rfl

theorem option_imp (imp : ∀ a b, R a b → S a b) (rel : Option.Rel R x y) : Option.Rel S x y := by
  cases rel with
  | none => exact .none
  | some one => exact .some (imp _ _ one)

theorem option_symm (symm : ∀ a b, R a b → R b a) (rel : Option.Rel R x y) : Option.Rel R y x := by
  cases rel with
  | none => exact .none
  | some one => exact .some (symm _ _ one)

theorem option_trans (trans : ∀ a b c, R a b → R b c → R a c) (first : Option.Rel R x y)
    (second : Option.Rel R y z) : Option.Rel R x z := by
  cases first with
  | none => exact second
  | some one =>
    cases second with
    | some two => exact .some (trans _ _ _ one two)

end Related

/-! ## Keys and dictionaries -/

/-- Distinct keys that are all found among some others are no more of them. -/
theorem Key.length_le {as bs : List Key} (apart : as.Pairwise fun a b => a.same b = false)
    (found : ∀ a ∈ as, ∃ b ∈ bs, b.same a = true) : as.length ≤ bs.length := by
  induction as generalizing bs with
  | nil => exact Nat.zero_le _
  | cons a as ih =>
    obtain ⟨first, rest⟩ := List.pairwise_cons.mp apart
    obtain ⟨b, here, same⟩ := found a (by simp)
    obtain ⟨before, after, rfl⟩ := List.append_of_mem here
    -- the others are found among what is left without the key that the first one is found as
    have others : ∀ c ∈ as, ∃ d ∈ before ++ after, d.same c = true := by
      intro c mem
      obtain ⟨d, inside, equal⟩ := found c (by simp [mem])
      rcases List.mem_append.mp inside with inside | inside
      · exact ⟨d, by simp [inside], equal⟩
      · rcases List.mem_cons.mp inside with rfl | inside
        · rw [Key.same_symm] at same
          have clash := Key.same_trans same equal
          rw [first c mem] at clash
          cases clash
        · exact ⟨d, by simp [inside], equal⟩
    have fewer := ih rest others
    simp only [List.length_append, List.length_cons] at fewer ⊢
    omega

/-- **As many keys, all found.** If distinct keys are all found among some others, and those are no
more of them, then each of those is found among them. -/
theorem Key.exists_same {as bs : List Key} (apart : as.Pairwise fun a b => a.same b = false)
    (found : ∀ a ∈ as, ∃ b ∈ bs, b.same a = true) (few : bs.length ≤ as.length) :
    ∀ b ∈ bs, ∃ a ∈ as, a.same b = true := by
  intro b mem
  by_contra none
  -- one more key, distinct from the others and found, would be one too many
  have alone : ∀ a ∈ as, b.same a = false := by
    intro a inside
    rw [Key.same_symm]
    exact Bool.eq_false_iff.mpr fun same => none ⟨a, inside, same⟩
  have more : (b :: as).length ≤ bs.length := by
    refine Key.length_le (List.pairwise_cons.mpr ⟨alone, apart⟩) fun a inside => ?_
    rcases List.mem_cons.mp inside with rfl | inside
    · exact ⟨a, mem, by simp⟩
    · exact found a inside
  rw [List.length_cons] at more
  omega

namespace Dictionary

variable {ρ : Type} {d e : Dictionary ρ} {j k : Key} {v : ρ}

/-- One key finds what another one that is the same finds. -/
theorem get?_congr (d : Dictionary ρ) (same : j.same k = true) : d.get? j = d.get? k := by
  obtain ⟨es⟩ := d
  simp only [get?]
  induction es with
  | nil => rfl
  | cons p es ih =>
    have alike : p.1.same j = p.1.same k := by
      rw [Bool.eq_iff_iff]
      constructor
      · exact fun first => Key.same_trans first same
      · rw [Key.same_symm] at same
        exact fun first => Key.same_trans first same
    simp only [find, alike, ih]

/-- What is found under a key is stored under one that is the same. -/
theorem exists_of_get? (found : d.get? k = some v) : ∃ j, (j, v) ∈ d.entries ∧ j.same k = true := by
  obtain ⟨es⟩ := d
  simp only [get?] at found ⊢
  induction es with
  | nil => cases found
  | cons p es ih =>
    unfold find at found
    split at found
    next same =>
      cases found
      exact ⟨_, by simp, same⟩
    next =>
      obtain ⟨j, inside, same⟩ := ih found
      exact ⟨j, by simp [inside], same⟩

/-- With distinct keys, what stands under a key is found. -/
theorem get?_of_mem (distinct : d.Distinct) (mem : (j, v) ∈ d.entries) : d.get? j = some v := by
  obtain ⟨es⟩ := d
  simp only [get?]
  induction es with
  | nil => cases mem
  | cons p es ih =>
    obtain ⟨first, rest⟩ := List.pairwise_cons.mp distinct
    rcases List.mem_cons.mp mem with rfl | mem
    · simp [find]
    · have other : p.1.same j = false := first (j, v) mem
      simp only [find, other, Bool.false_eq_true, if_false]
      exact ih rest mem

/-- Different keys are tested as different. -/
theorem Distinct.apart (distinct : d.Distinct) : d.keys.Pairwise fun a b => a.same b = false :=
  List.pairwise_map.mpr distinct

/-- A key is found exactly if one that is the same is there. -/
theorem Distinct.isSome_get?_iff (distinct : d.Distinct) :
    (d.get? k).isSome = true ↔ ∃ j ∈ d.keys, j.same k = true := by
  constructor
  · intro found
    obtain ⟨v, found⟩ := Option.isSome_iff_exists.mp found
    obtain ⟨j, inside, same⟩ := exists_of_get? found
    exact ⟨j, List.mem_map_of_mem (f := (·.1)) inside, same⟩
  · rintro ⟨j, inside, same⟩
    obtain ⟨p, stored, rfl⟩ := List.mem_map.mp inside
    rw [← get?_congr d same, get?_of_mem distinct stored]
    rfl

/-- Every key that the one dictionary has, the other one has as well. -/
def Within (d e : Dictionary ρ) : Prop := ∀ k, (d.get? k).isSome = true → (e.get? k).isSome = true

/-- Each key of the one has a counterpart in the other. -/
theorem Within.exists_same (within : d.Within e) (left : d.Distinct) (right : e.Distinct) :
    ∀ j ∈ d.keys, ∃ k ∈ e.keys, k.same j = true := by
  intro j mem
  have here : (d.get? j).isSome = true := left.isSome_get?_iff.mpr ⟨j, mem, by simp⟩
  exact right.isSome_get?_iff.mp (within j here)

theorem length_eq_keys (d : Dictionary ρ) : d.length = d.keys.length := by simp [keys, length]

/-- So the other has as many keys at least. -/
theorem Within.length_le (within : d.Within e) (left : d.Distinct) (right : e.Distinct) :
    d.length ≤ e.length := by
  rw [length_eq_keys, length_eq_keys]
  exact Key.length_le left.apart (within.exists_same left right)

/-- With as many keys, one dictionary's keys within the other's are all of them. -/
theorem Within.symm (within : d.Within e) (left : d.Distinct) (right : e.Distinct)
    (length : d.length = e.length) : e.Within d := by
  intro k found
  rw [length_eq_keys, length_eq_keys] at length
  obtain ⟨i, mem, same⟩ := right.isSome_get?_iff.mp found
  obtain ⟨j, known, key⟩ :=
    Key.exists_same left.apart (within.exists_same left right) length.ge i mem
  exact left.isSome_get?_iff.mpr ⟨j, known, Key.same_trans key same⟩

/-- **Equal dictionaries.** To compare lengths and look up the keys of one dictionary in the other
is to compare what stands under each key, so the order of the entries has no part in it. -/
theorem found_iff {R : ρ → ρ → Prop} (left : d.Distinct) (right : e.Distinct) :
    (d.length = e.length ∧ ∀ p ∈ d.entries, ∃ y, e.get? p.1 = some y ∧ R p.2 y) ↔
      ∀ k, Option.Rel R (d.get? k) (e.get? k) := by
  constructor
  · rintro ⟨length, found⟩ k
    have value {k x} (here : d.get? k = some x) : ∃ y, e.get? k = some y ∧ R x y := by
      obtain ⟨j, mem, same⟩ := exists_of_get? here
      rw [← get?_congr e same]
      exact found (j, x) mem
    have within : d.Within e := by
      intro k found
      obtain ⟨x, here⟩ := Option.isSome_iff_exists.mp found
      obtain ⟨y, there, -⟩ := value here
      rw [there]
      rfl
    cases here : d.get? k with
    | some x =>
      obtain ⟨y, there, equal⟩ := value here
      rw [there]
      exact .some equal
    | none =>
      have missing := (within.symm left right length k).mt (by simp [here])
      rw [Bool.not_eq_true, Option.isSome_eq_false_iff, Option.isNone_iff_eq_none] at missing
      rw [missing]
      exact .none
  · intro each
    have alike (k) : (d.get? k).isSome = (e.get? k).isSome := option_isSome (each k)
    have fewer : d.Within e := fun k found => alike k ▸ found
    have more : e.Within d := fun k found => alike k ▸ found
    refine ⟨Nat.le_antisymm (fewer.length_le left right) (more.length_le right left),
      fun p mem => ?_⟩
    have here := each p.1
    rw [get?_of_mem left mem] at here
    generalize e.get? p.1 = found at here
    cases here with
    | some equal => exact ⟨_, rfl, equal⟩

end Dictionary

/-! ## Contents -/

/-- What makes contents equal, given how reals and how parts compare. -/
inductive Data.Equal (reals : Float → Float → Bool) (E : Handle → Handle → Prop) :
    Data Handle → Data Handle → Prop where
  | leaf {l m : Leaf} (same : l.equal reals m = true) : Equal reals E (.leaf l) (.leaf m)
  | array {s t : Sequence Handle} (start : s.start = t.start)
    (items : List.Forall₂ E s.items t.items) : Equal reals E (.array s) (.array t)
  | dictionary {d e : Dictionary Handle} (values : ∀ k, Option.Rel E (d.get? k) (e.get? k)) :
    Equal reals E (.dictionary d) (.dictionary e)
  | record {r s : Record Handle} (members : List.Forall₂ (fun m n => m.1 = n.1 ∧
    E m.2 n.2) r.members s.members) : Equal reals E (.record r) (.record s)

section Leaves

variable {reals reals' : Float → Float → Bool} {l m n : Leaf}

/-- Leaves that are equal stay so where more reals are. -/
theorem Leaf.equal_mono (more : ∀ x y, reals x y = true → reals' x y = true)
    (same : l.equal reals m = true) : l.equal reals' m = true := by
  cases l <;> cases m <;> simp only [Leaf.equal, Bool.false_eq_true] at same ⊢
  case real.real => exact more _ _ same
  all_goals exact same

/-- Executables are the same if they have the same overloads, by arity and by stamp. -/
theorem Executable.same_iff {a b : Executable} :
    a.same b = true ↔ a.arities = b.arities ∧
      a.overloads.map (·.stamp) = b.overloads.map (·.stamp) := by
  simp [Executable.same]

/-- Leaves are equal both ways if reals are. -/
theorem Leaf.equal_symm (symm : ∀ x y, reals x y = true → reals y x = true)
    (same : l.equal reals m = true) : m.equal reals l = true := by
  cases l <;> cases m <;>
    simp only [Leaf.equal, Executable.same_iff, beq_iff_eq, Bool.false_eq_true] at same ⊢
  case real.real => exact symm _ _ same
  case executable.executable => exact ⟨same.1.symm, same.2.symm⟩
  all_goals exact same.symm

/-- Leaves are equal through a third one if reals are. -/
theorem Leaf.equal_trans (trans : ∀ x y z, reals x y = true → reals y z = true → reals x z = true)
    (first : l.equal reals m = true) (second : m.equal reals n = true) :
    l.equal reals n = true := by
  cases l <;> cases m <;>
    simp only [Leaf.equal, Executable.same_iff, beq_iff_eq, Bool.false_eq_true] at first <;>
    cases n <;> simp only [Leaf.equal, Executable.same_iff, beq_iff_eq,
      Bool.false_eq_true] at second ⊢
  case real.real.real => exact trans _ _ _ first second
  case executable.executable.executable => exact ⟨first.1.trans second.1, first.2.trans second.2⟩
  all_goals exact first.trans second

end Leaves

namespace Data.Equal

variable {reals reals' : Float → Float → Bool} {E F : Handle → Handle → Prop} {d e f : Data Handle}

/-- Contents that are equal stay so where more reals and more parts are. -/
theorem mono (more : ∀ x y, reals x y = true → reals' x y = true) (parts : ∀ x y, E x y → F x y)
    (equal : d.Equal reals E e) : d.Equal reals' F e := by
  cases equal with
  | leaf same => exact .leaf (Leaf.equal_mono more same)
  | array start items => exact .array start (items.imp parts)
  | dictionary values => exact .dictionary fun k => option_imp parts (values k)
  | record members => exact .record (members.imp fun _ _ same => ⟨same.1, parts _ _ same.2⟩)

/-- Contents are equal both ways if reals and parts are. -/
theorem symm (reals_symm : ∀ x y, reals x y = true → reals y x = true)
    (parts : ∀ x y, E x y → E y x) (equal : d.Equal reals E e) : e.Equal reals E d := by
  cases equal with
  | leaf same => exact .leaf (Leaf.equal_symm reals_symm same)
  | array start items => exact .array start.symm (items.flip.imp fun _ _ same => parts _ _ same)
  | dictionary values => exact .dictionary fun k => option_symm parts (values k)
  | record members =>
    exact .record (members.flip.imp fun _ _ same => ⟨same.1.symm, parts _ _ same.2⟩)

/-- Contents are equal through a third one if reals and parts are. -/
theorem trans (reals_trans : ∀ x y z, reals x y = true → reals y z = true → reals x z = true)
    (parts : ∀ x y z, E x y → E y z → E x z) (first : d.Equal reals E e)
    (second : e.Equal reals E f) : d.Equal reals E f := by
  cases first with
  | leaf same =>
    cases second with
    | leaf again => exact .leaf (Leaf.equal_trans reals_trans same again)
  | array start items =>
    cases second with
    | array start' items' => exact .array (start.trans start') (forall₂_trans parts items items')
  | dictionary values =>
    cases second with
    | dictionary values' => exact .dictionary fun k => option_trans parts (values k) (values' k)
  | record members =>
    cases second with
    | record members' =>
      exact .record (forall₂_trans (fun _ _ _ one two =>
        ⟨one.1.trans two.1, parts _ _ _ one.2 two.2⟩) members members')

end Data.Equal

/-! ## Values -/

namespace Heap

variable {h : Heap} {reals reals' : Float → Float → Bool} {a b c : Handle}

/-- **One level of a comparison.** -/
theorem equalOnce_iff (distinct : h.All Data.Distinct) {f : Handle → Handle → Bool} :
    h.equalOnce reals f a b = true ↔ a = b ∨
      (h.data a).Equal reals (fun x y => f x y = true) (h.data b) := by
  unfold equalOnce
  rw [Bool.or_eq_true, beq_iff_eq]
  refine or_congr_right ?_
  have left := distinct a
  have right := distinct b
  generalize h.data a = d, h.data b = e at left right
  cases d <;> cases e
  case leaf.leaf l m =>
    exact ⟨fun same => .leaf same, fun | .leaf same => same⟩
  case array.array s t =>
    simp only [Bool.and_eq_true, beq_iff_eq, List.all_eq_true, Sequence.length]
    constructor
    · rintro ⟨⟨start, length⟩, each⟩
      exact .array start (List.forall₂_iff_zip.mpr ⟨length, fun mem => each _ mem⟩)
    · rintro (_ | ⟨start, items⟩)
      exact ⟨⟨start, items.length_eq⟩, fun _ mem => (List.forall₂_iff_zip.mp items).2 mem⟩
  case dictionary.dictionary d e =>
    have lookup : d.length = e.length ∧
        (∀ p ∈ d.entries, ∃ y, e.get? p.1 = some y ∧ f p.2 y = true) ↔ _ :=
      Dictionary.found_iff (R := fun x y => f x y = true) (left.keys _ rfl) (right.keys _ rfl)
    simp only [Bool.and_eq_true, beq_iff_eq, List.all_eq_true]
    refine Iff.trans (and_congr_right fun _ => forall₂_congr fun p _ => ?_)
      (lookup.trans ⟨fun values => .dictionary values, fun | .dictionary values => values⟩)
    cases e.get? p.1 <;> simp
  case record.record r s =>
    simp only [Bool.and_eq_true, beq_iff_eq, List.all_eq_true, Record.length]
    constructor
    · rintro ⟨length, each⟩
      exact .record (List.forall₂_iff_zip.mpr ⟨length, fun mem => each _ mem⟩)
    · rintro (_ | _ | _ | members)
      exact ⟨members.length_eq, fun _ mem => (List.forall₂_iff_zip.mp members).2 mem⟩
  all_goals exact ⟨nofun, nofun⟩

/-- A value equals itself, whatever its reals are: the two are one cell. -/
theorem equalTo_self (reals : Float → Float → Bool) (n : Nat) (a : Handle) :
    h.equalTo reals n a a = true := by
  cases n <;> simp [equalTo]

/-- Values that are equal stay so where more reals are. -/
theorem equalTo_mono (distinct : h.All Data.Distinct)
    (more : ∀ x y, reals x y = true → reals' x y = true) {n : Nat}
    (equal : h.equalTo reals n a b = true) : h.equalTo reals' n a b = true := by
  induction n generalizing a b with
  | zero => exact equal
  | succ n ih =>
    rw [equalTo_succ, equalOnce_iff distinct] at equal ⊢
    exact equal.imp_right (·.mono more fun _ _ => ih)

/-- Values are equal both ways, level by level. -/
theorem equalTo_symm (distinct : h.All Data.Distinct)
    (symm : ∀ x y, reals x y = true → reals y x = true) {n : Nat}
    (equal : h.equalTo reals n a b = true) : h.equalTo reals n b a = true := by
  induction n generalizing a b with
  | zero =>
    simp only [equalTo, beq_iff_eq] at equal ⊢
    exact equal.symm
  | succ n ih =>
    rw [equalTo_succ, equalOnce_iff distinct] at equal ⊢
    exact equal.imp Eq.symm (·.symm symm fun _ _ => ih)

/-- Values are equal through a third one, level by level. -/
theorem equalTo_trans (distinct : h.All Data.Distinct)
    (trans : ∀ x y z, reals x y = true → reals y z = true → reals x z = true) {n : Nat}
    (first : h.equalTo reals n a b = true) (second : h.equalTo reals n b c = true) :
    h.equalTo reals n a c = true := by
  induction n generalizing a b c with
  | zero =>
    simp only [equalTo, beq_iff_eq] at first second ⊢
    exact first.trans second
  | succ n ih =>
    rw [equalTo_succ, equalOnce_iff distinct] at first second ⊢
    rcases first with rfl | first
    · exact second
    · rcases second with rfl | second
      · exact .inr first
      · exact .inr (first.trans trans (fun _ _ _ => ih) second)

/-- Values that are exactly equal are alike: reals that are equal are so up to rounding error. -/
theorem alike_of_exactlyEqual (distinct : h.All Data.Distinct) (equal : h.exactlyEqual a b = true) :
    h.alike a b = true :=
  equalTo_mono distinct (fun x y same => by simp [Tolerance.equal, same]) equal

/-- Reflexive by identity, at every level, although a NaN is not equal to itself. -/
theorem equivalence_exactlyEqual (distinct : h.All Data.Distinct) :
    Equivalence fun a b => h.exactlyEqual a b = true := by
  have symm (x y : Float) : (x == y) = true → (y == x) = true := BEq.symm
  have trans (x y z : Float) : (x == y) = true → (y == z) = true → (x == z) = true := BEq.trans
  exact ⟨equalTo_self _ _, equalTo_symm distinct symm, equalTo_trans distinct trans⟩

end Heap

/-- **Exact equality.** In every reachable host, exact equality is an equivalence. It holds of a
value and itself, and besides of values with equal contents: equal leaves, arrays and structures
with exactly equal parts in order, and dictionaries that have exactly equal values under each key,
whatever the order of their entries. Exactly equal values are alike. -/
theorem exactlyEqual_equivalence {s : Host} (reachable : s.Reachable) :
    (Equivalence fun a b => s.heap.exactlyEqual a b = true) ∧
    (∀ a b, s.heap.exactlyEqual a b = true ↔
      a = b ∨ (s.heap.data a).Equal (· == ·) (fun x y => s.heap.exactlyEqual x y = true)
        (s.heap.data b)) ∧
    ∀ a b, s.heap.exactlyEqual a b = true → s.heap.alike a b = true := by
  have distinct := reachable.distinct
  refine ⟨Heap.equivalence_exactlyEqual distinct, fun a b => ?_,
    fun a b => Heap.alike_of_exactlyEqual distinct⟩
  rw [reachable.wellFormed.exactlyEqual_eq]
  exact Heap.equalOnce_iff distinct

/-- Two dictionaries with their entries the other way around, whose arrays share a NaN. -/
theorem exactlyEqual_equivalence_entries :
    let text (t : String) : Expr := .literal (.string t)
    let list : Expr := .array 0 [.held "nan", .literal (.integer 2)] .refuse
    let s := Session.after (.bare .default)
      [.hold "nan" (.literal (.real ⟨0x7ff8000000000000⟩)),
        .hold "left" (.dictionary [(text "x", list), (text "y", text "z")]),
        .hold "right" (.dictionary [(text "y", text "z"), (text "x", list)])]
    s.heap.exactlyEqual ⟨1⟩ ⟨7⟩ = true ∧ s.heap.exactlyEqual ⟨7⟩ ⟨1⟩ = true ∧
      s.heap.alike ⟨1⟩ ⟨7⟩ = true := by
  intro text list s
  have reachable : s.Reachable := Host.reachable_after ⟨.default, true, [], none⟩ _
  obtain ⟨equivalence, -, alike⟩ := exactlyEqual_equivalence reachable
  have equal : s.heap.exactlyEqual ⟨1⟩ ⟨7⟩ = true := by decide +kernel
  exact ⟨equal, equivalence.symm equal, alike _ _ equal⟩

end ScriptHost
