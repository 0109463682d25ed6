import ScriptHost.Proofs.Heap.Change
import ScriptHost.Proofs.Value.Contents

/-!
# Kinds that last, and arrays of one kind

What a change puts in place of some contents is related to them by `Data.Keeps`, which is reflexive
and transitive. So a value that is not Null keeps its kind (`Change.kind`).

An array that was declared with an element type other than Null admits elements of the kind of that
type only (`Data.Admits`). A heap is homogeneous if whatever is held in it is admitted where it is
held. A change need not keep that, since storing an element is a change whatever its kind;
`Change.realm` says what a change has to bring along. A `Realm` is a region that is homogeneous if
it is to be, so that the lemmas about operations serve for both cases.
-/

set_option autoImplicit false

namespace ScriptHost

namespace Data

variable {ρ σ : Type}

/-! ## Schemas -/

theorem Keeps.refl (d : Data ρ) : d.Keeps d := by
  cases d with
  | leaf l =>
    cases l with
    | null => trivial
    | integer i b => exact ⟨i, rfl⟩
    | real r b => exact ⟨r, rfl⟩
    | type t => exact ⟨_, rfl, rfl⟩
    | boolean b => exact ⟨_, rfl, rfl⟩
    | string s => exact ⟨_, rfl, rfl⟩
    | executable e => exact ⟨_, rfl, rfl⟩
  | array s => exact ⟨s, rfl, rfl, rfl, rfl⟩
  | dictionary d => exact ⟨d, rfl⟩
  | record r => rfl

/-- A leaf keeps the kind that it has. -/
theorem Keeps.leaf {l m : Leaf} {e : Data ρ} (keeps : (Data.leaf m : Data ρ).Keeps e)
    (same : m.kind = l.kind) (other : l.kind ≠ .null) : ∃ n, e = .leaf n ∧ n.kind = l.kind := by
  cases m with
  | null => exact absurd same.symm other
  | integer i b =>
    obtain ⟨j, rfl⟩ := keeps
    exact ⟨_, rfl, same⟩
  | real r b =>
    obtain ⟨q, rfl⟩ := keeps
    exact ⟨_, rfl, same⟩
  | type _ | boolean _ | string _ | executable _ =>
    obtain ⟨n, rfl, kind⟩ := keeps
    exact ⟨n, rfl, kind.trans same⟩

theorem Keeps.trans {d e f : Data ρ} (first : d.Keeps e) (second : e.Keeps f) : d.Keeps f := by
  cases d with
  | leaf l =>
    cases l with
    | null => trivial
    | integer i b =>
      obtain ⟨j, rfl⟩ := first
      exact second
    | real r b =>
      obtain ⟨q, rfl⟩ := first
      exact second
    | type _ | boolean _ | string _ | executable _ =>
      obtain ⟨m, rfl, same⟩ := first
      exact second.leaf same (by simp [Leaf.kind])
  | array s =>
    obtain ⟨t, rfl, start, element, policy⟩ := first
    obtain ⟨u, rfl, start', element', policy'⟩ := second
    exact ⟨u, rfl, start'.trans start, element'.trans element, policy'.trans policy⟩
  | dictionary d =>
    obtain ⟨e, rfl⟩ := first
    exact second
  | record r =>
    rw [first] at second
    exact second

theorem Keeps.kind {d e : Data ρ} (keeps : d.Keeps e) (other : d.kind ≠ .null) :
    e.kind = d.kind := by
  cases d with
  | leaf l =>
    obtain ⟨n, rfl, same⟩ := keeps.leaf rfl other
    exact same
  | array s =>
    obtain ⟨t, rfl, -⟩ := keeps
    rfl
  | dictionary d =>
    obtain ⟨e, rfl⟩ := keeps
    rfl
  | record r =>
    rw [keeps]

/-! ## What an array admits -/

/-- The kind of the element type that an array was declared with. -/
def elementKind? : Data ρ → Option Kind
  | .array s => s.element.map TypeDesc.kind
  | _ => none

/-- Whether a value of a kind is admitted as a part: an element type other than Null asks for its
own kind. -/
def Admits (d : Data ρ) (k : Kind) : Prop := ∀ e ∈ d.elementKind?, e ≠ .null → k = e

instance (d : Data ρ) (k : Kind) : Decidable (d.Admits k) :=
  inferInstanceAs (Decidable (∀ e ∈ d.elementKind?, e ≠ .null → k = e))

/-- Null is admitted only where everything is, so that only other kinds have to last. -/
theorem Admits.lasts {d : Data ρ} {k k' : Kind} (admitted : d.Admits k)
    (lasting : k ≠ .null → k' = k) : d.Admits k' := by
  intro e declared other
  obtain rfl : k = e := admitted e declared other
  exact lasting other

/-- An array keeps its element type when its elements are replaced. -/
theorem Keeps.elementKind? {s : Sequence ρ} {e : Data ρ} (keeps : (Data.array s).Keeps e) :
    e.elementKind? = (Data.array s).elementKind? := by
  obtain ⟨t, rfl, -, element, -⟩ := keeps
  simp only [Data.elementKind?, element]

theorem Matches.elementKind? {R : ρ → σ → Prop} {d : Data ρ} {e : Data σ}
    (matched : d.Matches R e) : e.elementKind? = d.elementKind? := by
  cases matched <;> rfl

/-- Every part is admitted where it is held, the parts having these kinds. -/
def Homogeneous (kind : ρ → Kind) (d : Data ρ) : Prop := ∀ p ∈ d.parts, d.Admits (kind p)

variable {kind : ρ → Kind}

/-- Without an element type everything is admitted. -/
theorem homogeneous_of_untyped {d : Data ρ} (untyped : d.elementKind? = none) :
    d.Homogeneous kind := by
  intro p _ e declared
  rw [untyped] at declared
  cases declared

theorem Homogeneous.lasts {kind' : ρ → Kind} {d : Data ρ} (homogeneous : d.Homogeneous kind)
    (lasting : ∀ p, kind p ≠ .null → kind' p = kind p) : d.Homogeneous kind' :=
  fun p part => (homogeneous p part).lasts (lasting p)

/-- Contents that match homogeneous ones in parts of the same kinds are homogeneous. -/
theorem Matches.homogeneous {R : ρ → σ → Prop} {kind' : σ → Kind} {d : Data ρ} {e : Data σ}
    (matched : d.Matches R e) (same : ∀ p q, R p q → kind' q = kind p)
    (homogeneous : d.Homogeneous kind) : e.Homogeneous kind' := by
  intro q part
  obtain ⟨p, inside, related⟩ := matched.exists_part part
  rw [Admits, matched.elementKind?, same p q related]
  exact homogeneous p inside

end Data

namespace Heap

variable {typed : Prop} {P : Handle → Prop} {h h' : Heap} {v : Handle}

/-! ## Kinds that last -/

/-- **One change** keeps the schema of every cell that is there. -/
theorem Change.keeps (change : Change P h h') (made : h.Made v) : (h.data v).Keeps (h'.data v) := by
  cases change with
  | stamp => exact .refl _
  | push c =>
    rw [data_congr (cell_push_of_made made)]
    exact .refl _
  | write w d there _ _ _ keeps =>
    by_cases here : v = w
    · subst here
      simpa only [data, cell_setCell_self h v _ there] using keeps
    · rw [data_congr (cell_setCell_ne h _ here)]
      exact .refl _
  | lock h' locking =>
    rw [locking.data]
    exact .refl _

/-- Where no cell has been made, there is a Null. -/
theorem made_of_kind (other : h.kind v ≠ .null) : h.Made v := by
  by_contra no
  rw [Heap.kind, data, cell_of_not_made no] at other
  exact other rfl

theorem made_of_array {s : Sequence Handle} (held : h.data v = .array s) : h.Made v :=
  made_of_kind (by simp [Heap.kind, held, Data.kind])

/-- Where there is an array, another one can be put. -/
theorem data_stored {s t : Sequence Handle} (held : h.data v = .array s) :
    (h.setCell v ⟨.array t, false⟩).data v = .array t := by
  rw [data, cell_setCell_self h v _ (made_of_array held)]

theorem Change.kind (change : Change P h h') (other : h.kind v ≠ .null) : h'.kind v = h.kind v :=
  (change.keeps (made_of_kind other)).kind other

/-! ## Homogeneous heaps -/

/-- Whether a value is admitted where it is to be held. -/
def Admits (h : Heap) (target v : Handle) : Prop := (h.data target).Admits (h.kind v)

instance (h : Heap) (target v : Handle) : Decidable (h.Admits target v) :=
  inferInstanceAs (Decidable ((h.data target).Admits (h.kind v)))

/-- Everything is admitted where it is held. -/
def Homogeneous (h : Heap) : Prop := ∀ v, (h.data v).Homogeneous h.kind

theorem empty_homogeneous : empty.Homogeneous :=
  fun v _ part => absurd (made_of_part part) (not_made_empty v)

/-- A region, homogeneous if it is to be. -/
structure Realm (typed : Prop) (P : Handle → Prop) (h : Heap) : Prop extends h.Region P where
  homogeneous : typed → h.Homogeneous

/-- Every region, if it need not be homogeneous. -/
theorem Region.realm (region : h.Region P) : h.Realm False P :=
  { region with homogeneous := False.elim }

/-- **A change keeps a realm** if the contents it brings are homogeneous. -/
theorem Change.realm (change : Change P h h') (realm : h.Realm typed P)
    (brings : typed → ∀ v, h'.data v = h.data v ∨ (h'.data v).Homogeneous h.kind) :
    h'.Realm typed P where
  toRegion := change.region realm.toRegion
  homogeneous on v := by
    have before : (h'.data v).Homogeneous h.kind := by
      obtain same | brought := brings on v
      · rw [same]
        exact realm.homogeneous on v
      · exact brought
    exact before.lasts fun p other => change.kind other

end Heap

end ScriptHost
