import ScriptHost.Proofs.Heap.Container
import ScriptHost.Proofs.Heap.Copy
import ScriptHost.Session

/-!
# Declared values

A type declares a value in one way at every level: it declares its components, and then makes one
cell that holds them (`HeapM.declare_eq`). `Heap.Corresponds` goes down a value and its type side by
side, so that every cell of a declared value stands next to the type that it was declared from.
`Heap.Plants roots h h'` says what declarations add to a heap: new cells only, each of which belongs
to one of the roots, and stands there as the type next to it declares it. Declarations one after the
other add up (`Heap.Plants.append`), and a cell on top of its components is one root in place of
many (`Heap.Plants.mount`). From that, by induction on the type, every type can be declared in every
heap (`Heap.plants_declare`).

The type of a value is read off the value alone. Of a declared value it is the type that declared it
(`HeapM.typeOf_of_declared`). Of any array it declares an array with the same start and policy. The
length is the same only as long as the last index is an integer: the range of an array ends with the
greatest integer at the latest, and with the least at the earliest, even where the array does not.
-/

set_option autoImplicit false

namespace ScriptHost

/-! ## Ranges -/

namespace Integer

/-- Saturation brings a number into the range of integers. -/
theorem toInt_saturate (i : Int) :
    (saturate i).toInt = if i < least then least else if greatest < i then greatest else i := by
  unfold saturate
  split
  · exact toInt_ofInt_of_mem (by decide) (by decide)
  · split
    · exact toInt_ofInt_of_mem (by decide) (by decide)
    · exact toInt_ofInt_of_mem (by omega) (by omega)

end Integer

namespace TypeDesc

/-- The slots of a range are its indices, if a word can count them. -/
theorem toInt_slots {start finish : Integer} (ordered : start.toInt - 1 ≤ finish.toInt)
    (counted : finish.toInt - start.toInt + 1 < 18446744073709551616) :
    (slots start finish : Int) = finish.toInt - start.toInt + 1 := by
  unfold slots
  omega

mutual

/-- A word can count the indices of every array range: there are fewer than `2 ^ 64` of them. -/
def Counted : TypeDesc → Prop
  | .array start finish element _ =>
    finish.toInt - start.toInt + 1 < 18446744073709551616 ∧ element.Counted
  | .record _ members => MembersCounted members
  | _ => True

/-- A word can count the indices of every array range in the types of the members. -/
def MembersCounted : List (String × TypeDesc) → Prop
  | [] => True
  | (_, t) :: members => t.Counted ∧ MembersCounted members

end

/-! ## Components -/

/-- The types of the parts that a value of the type is declared with, in order. -/
def components : TypeDesc → List TypeDesc
  | .array start finish element _ => List.replicate (slots start finish) element
  | .record _ members => members.map (·.2)
  | _ => []

/-- The contents that the type declares, with given parts. -/
def initial (t : TypeDesc) (parts : List Handle) : Data Handle :=
  match t with
  | .null => .leaf .null
  | .boolean => .leaf (.boolean false)
  | .integer => .leaf (.integer 0 none)
  | .rangedInteger b => .leaf (.integer b.start (some b))
  | .real => .leaf (.real 0 none)
  | .rangedReal b => .leaf (.real (.ofFloat b.startReal) (some b))
  | .string => .leaf (.string "")
  | .dictionary => .dictionary .empty
  | .array start _ element policy => .array (.declared start parts element policy)
  | .record name members => .record (.declared ⟨name, members⟩ ((members.map (·.1)).zip parts))

variable {t e : TypeDesc}

/-- Members of different names are all of them kept. -/
theorem members_declared {type : RecordType} {parts : List Handle}
    (distinct : (type.members.map (·.1)).Nodup) (matched : parts.length = type.members.length) :
    (Record.declared type ((type.members.map (·.1)).zip parts)).members =
      (type.members.map (·.1)).zip parts := by
  apply Record.members_ofMembers
  rwa [List.map_fst_zip (by simp [matched])]

/-- The parts of a declared value are those that it is declared with, if no member is named
twice. -/
theorem parts_initial {parts : List Handle} (formed : t.WellFormed)
    (matched : parts.length = t.components.length) : (t.initial parts).parts = parts := by
  cases t with
  | array start finish element policy => rfl
  | record name members =>
    have length : parts.length = members.length := by simpa [components] using matched
    rw [initial, Data.parts, Record.values, members_declared formed.1 length,
      List.map_snd_zip (by simp [length])]
  | _ =>
    have none : parts = [] := List.length_eq_zero_iff.mp matched
    rw [none]
    rfl

/-- A declared value has the kind of its type. -/
theorem kind_initial (t : TypeDesc) (parts : List Handle) : (t.initial parts).kind = t.kind := by
  cases t <;> rfl

theorem kind_ne_type (t : TypeDesc) : t.kind ≠ .type := by cases t <;> simp [kind]

/-- A component is the element of an array type, or the type of a member. -/
theorem mem_components (mem : e ∈ t.components) :
    (∃ start finish policy, t = .array start finish e policy) ∨ ∃ name members n,
      t = .record name members ∧ (n, e) ∈ members := by
  cases t with
  | array start finish element policy =>
    obtain ⟨-, rfl⟩ := List.mem_replicate.mp mem
    exact .inl ⟨start, finish, policy, rfl⟩
  | record name members =>
    obtain ⟨⟨n, e⟩, within, rfl⟩ := List.mem_map.mp mem
    exact .inr ⟨name, members, n, rfl, within⟩
  | _ => cases mem

/-- Components are smaller, so types can be gone down. -/
theorem sizeOf_component (mem : e ∈ t.components) : sizeOf e < sizeOf t := by
  rcases mem_components mem with ⟨start, finish, policy, rfl⟩ | ⟨name, members, n, rfl, within⟩
  · simp only [array.sizeOf_spec]
    omega
  · have smaller := List.sizeOf_lt_of_mem within
    simp only [record.sizeOf_spec, Prod.mk.sizeOf_spec] at smaller ⊢
    omega

/-- What holds of a type if it holds of its components holds of every type. -/
theorem induction {P : TypeDesc → Prop} (step : ∀ t, (∀ e ∈ t.components, P e) → P t)
    (t : TypeDesc) : P t :=
  step t fun e _ => induction step e
termination_by sizeOf t
decreasing_by exact sizeOf_component ‹_›

theorem membersWellFormed_iff {members : List (String × TypeDesc)} :
    MembersWellFormed members ↔ ∀ m ∈ members, m.2.WellFormed := by
  induction members with
  | nil => simp [MembersWellFormed]
  | cons m members ih => simp [MembersWellFormed, ih]

theorem membersCounted_iff {members : List (String × TypeDesc)} :
    MembersCounted members ↔ ∀ m ∈ members, m.2.Counted := by
  induction members with
  | nil => simp [MembersCounted]
  | cons m members ih => simp [MembersCounted, ih]

/-- Components of well-formed types are well formed. -/
theorem WellFormed.component (formed : t.WellFormed) (mem : e ∈ t.components) : e.WellFormed := by
  rcases mem_components mem with ⟨start, finish, policy, rfl⟩ | ⟨name, members, n, rfl, within⟩
  · exact formed.2
  · exact membersWellFormed_iff.mp formed.2 (n, e) within

theorem Counted.component (counted : t.Counted) (mem : e ∈ t.components) : e.Counted := by
  rcases mem_components mem with ⟨start, finish, policy, rfl⟩ | ⟨name, members, n, rfl, within⟩
  · exact counted.2
  · exact membersCounted_iff.mp counted (n, e) within

end TypeDesc

/-! ## Types that can be built -/

namespace TypeSpec

open TypeDesc

/-- One more member leaves the names different: it is refused if its name is taken. -/
theorem members_of_addMember {done all : List (String × TypeDesc)} {name : String} {t : TypeDesc}
    (formed : (done.map (·.1)).Nodup ∧ MembersWellFormed done) (type : t.WellFormed)
    (added : addMember done name t = .ok all) : (all.map (·.1)).Nodup ∧ MembersWellFormed all := by
  unfold addMember at added
  split at added
  · cases added
  next free =>
    cases added
    have new : name ∉ done.map (·.1) := by simpa [List.any_eq_true] using free
    constructor
    · rw [List.map_append, List.nodup_append]
      refine ⟨formed.1, by simp, ?_⟩
      intro a old b last same
      obtain rfl : b = name := by simpa using last
      exact new (same ▸ old)
    · rw [membersWellFormed_iff] at formed ⊢
      intro m mem
      rcases List.mem_append.mp mem with old | last
      · exact formed.2 m old
      · rw [List.mem_singleton.mp last]
        exact type

mutual

/-- A type that has been built is well formed. -/
theorem wellFormed_of_build :
    (spec : TypeSpec) → ∀ {t : TypeDesc}, spec.build = .ok t → t.WellFormed
  | .null, _, built | .boolean, _, built | .integer, _, built | .real, _, built | .string, _, built
  | .dictionary, _, built => by
    unfold build at built
    cases built
    trivial
  | .rangedInteger least greatest policy, _, built
  | .rangedReal least greatest policy, _, built => by
    unfold build at built
    obtain ⟨b, -, rfl⟩ := Except.ok_of_map built
    trivial
  | .array start finish element policy, _, built => by
    unfold build at built
    obtain ⟨e, inner, ranged⟩ := Except.ok_of_bind built
    unfold ofRange at ranged
    split at ranged
    · cases ranged
    next ordered =>
      cases ranged
      exact ⟨Int.not_lt.mp ordered, wellFormed_of_build element inner⟩
  | .record name members, _, built => by
    unfold build at built
    obtain ⟨all, inner, rfl⟩ := Except.ok_of_map built
    have none : (([] : List (String × TypeDesc)).map (·.1)).Nodup ∧ MembersWellFormed [] :=
      ⟨List.nodup_nil, trivial⟩
    exact members_of_buildMembers members none inner

/-- So members that have been built are well formed, and no name is there twice. -/
theorem members_of_buildMembers :
    (members : List (String × TypeSpec)) → ∀ {done all : List (String × TypeDesc)},
    (done.map (·.1)).Nodup ∧ MembersWellFormed done → buildMembers done members = .ok all →
      (all.map (·.1)).Nodup ∧ MembersWellFormed all
  | [], _, _, formed, built => by
    unfold buildMembers at built
    cases built
    exact formed
  | (name, spec) :: members, done, _, formed, built => by
    unfold buildMembers at built
    obtain ⟨t, inner, rest⟩ := Except.ok_of_bind built
    obtain ⟨more, added, rest⟩ := Except.ok_of_bind rest
    exact members_of_buildMembers members
      (members_of_addMember formed (wellFormed_of_build spec inner) added) rest

end

end TypeSpec

/-! ## One level of a declaration -/

namespace HeapM

/-- Members are declared one after the other, by their types. -/
theorem declareMembers_eq (members : List (String × TypeDesc)) :
    declareMembers members =
      do return (members.map (·.1)).zip (← (members.map (·.2)).mapM declare) := by
  induction members with
  | nil =>
    unfold declareMembers
    rfl
  | cons m members ih =>
    obtain ⟨name, t⟩ := m
    unfold declareMembers
    simp [List.mapM_cons, ih]

/-- **A declaration, level by level**: the components are declared, and one cell is made that holds
them. -/
theorem declare_eq (t : TypeDesc) :
    declare t = t.components.mapM declare >>= fun parts => new (t.initial parts) := by
  cases t with
  | array start finish element policy =>
    have slots : List.replicate (TypeDesc.slots start finish) element =
        (List.replicate (TypeDesc.slots start finish) ()).map fun _ => element := by simp
    unfold declare
    rw [TypeDesc.components, slots, List.mapM_map]
    rfl
  | record name members =>
    unfold declare
    rw [declareMembers_eq]
    simp [TypeDesc.components, TypeDesc.initial]
  | _ =>
    unfold declare
    rfl

end HeapM

/-! ## What a declaration adds to a heap -/

namespace Heap

/-- A part of a value, with the component of the type that it belongs to. -/
def Component (h : Heap) (a b : TypeDesc × Handle) : Prop := b ∈ a.1.components.zip (h.parts a.2)

/-- A value somewhere in another one, with the part of its type that it belongs to. -/
def Corresponds (h : Heap) : TypeDesc × Handle → TypeDesc × Handle → Prop :=
  Relation.ReflTransGen h.Component

/-- The value is an unlocked one as the type declares it, with a part of its own for every
component. -/
def Declared (h : Heap) (t : TypeDesc) (v : Handle) : Prop :=
  ∃ parts, h.cell v = ⟨t.initial parts, false⟩ ∧ parts.length = t.components.length ∧ parts.Nodup

variable {h h' h'' : Heap} {t u : TypeDesc} {v w : Handle} {root a b : TypeDesc × Handle}
  {roots others : List (TypeDesc × Handle)}

theorem Declared.isLocked (declared : h.Declared t v) : h.isLocked v = false := by
  obtain ⟨parts, cell, -⟩ := declared
  rw [Heap.isLocked, cell]

theorem Declared.made (declared : h.Declared t v) : h.Made v := made_of_unlocked declared.isLocked

theorem Declared.kind (declared : h.Declared t v) : h.kind v = t.kind := by
  obtain ⟨parts, cell, -⟩ := declared
  rw [Heap.kind, data, cell, TypeDesc.kind_initial]

/-- A declared value has a part of its own for every component. -/
theorem Declared.parts (declared : h.Declared t v) (formed : t.WellFormed) :
    (h.parts v).length = t.components.length ∧ (h.parts v).Nodup := by
  obtain ⟨parts, cell, matched, distinct⟩ := declared
  rw [Heap.parts, data, cell, TypeDesc.parts_initial formed matched]
  exact ⟨matched, distinct⟩

/-- Declared values stay as they are while the heap grows. -/
theorem Declared.extends (declared : h.Declared t v) (more : h.Extends h') : h'.Declared t v := by
  have made := declared.made
  obtain ⟨parts, cell, matched⟩ := declared
  exact ⟨parts, (more.cell v made).trans cell, matched⟩

/-- Cells that are made later do not count among those of a value that there is. -/
theorem corresponds_extends_iff (made : ∀ u w, h.Corresponds root (u, w) → h.Made w)
    (more : h.Extends h') : h'.Corresponds root b ↔ h.Corresponds root b := by
  have same : ∀ {a}, h.Corresponds root a → h'.parts a.2 = h.parts a.2 := by
    intro a path
    exact parts_congr (more.cell a.2 (made a.1 a.2 path))
  constructor
  · intro path
    induction path with
    | refl => exact .refl
    | tail _ last ih =>
      rw [Component, same ih] at last
      exact ih.tail last
  · intro path
    induction path with
    | refl => exact .refl
    | tail earlier last ih =>
      rw [Component, ← same earlier] at last
      exact ih.tail last

/-- The heap has got cells that have been declared. Those of a well-formed type are all of them
somewhere in its root: a structure type that names a member twice loses the first value of that
name. -/
structure Plants (roots : List (TypeDesc × Handle)) (h h' : Heap) : Prop where
  ext : h.Extends h'
  /-- A root is new, and as its type declares it. -/
  tops : ∀ root ∈ roots, ¬ h.Made root.2 ∧ h'.Declared root.1 root.2
  /-- Nothing has been made that does not belong to a root. -/
  covers : (∀ root ∈ roots, root.1.WellFormed) → ∀ w, h'.Made w → h.Made w ∨ ∃ root ∈ roots, ∃ u,
    h'.Corresponds root (u, w)
  /-- So is what belongs to a root. -/
  each : ∀ root ∈ roots, root.1.WellFormed → ∀ u w, h'.Corresponds root (u, w) → ¬ h.Made w ∧
    h'.Declared u w
  distinct : (roots.map (·.2)).Nodup

namespace Plants

theorem nothing (h : Heap) : Plants [] h h where
  ext := .refl h
  tops _ mem := absurd mem List.not_mem_nil
  covers _ _ made := .inl made
  each _ mem := absurd mem List.not_mem_nil
  distinct := List.nodup_nil

/-- What belongs to a root is settled when it has been declared. -/
theorem corresponds_iff (plants : Plants roots h h') (mem : root ∈ roots)
    (formed : root.1.WellFormed) (more : h'.Extends h'') :
    h''.Corresponds root b ↔ h'.Corresponds root b :=
  corresponds_extends_iff (fun u w path => (plants.each root mem formed u w path).2.made) more

/-- **Declarations add up.** -/
theorem append (first : Plants roots h h') (second : Plants others h' h'') :
    Plants (roots ++ others) h h'' where
  ext := first.ext.trans second.ext
  tops root mem := by
    rcases List.mem_append.mp mem with mem | mem
    · exact (first.tops root mem).imp id (·.extends second.ext)
    · exact (second.tops root mem).imp (fun new old => new (first.ext.made old)) id
  covers formed w made := by
    have left : ∀ root ∈ roots, root.1.WellFormed :=
      fun root mem => formed root (List.mem_append_left _ mem)
    rcases second.covers (fun root mem => formed root (List.mem_append_right _ mem)) w made
      with before | ⟨root, mem, u, path⟩
    · rcases first.covers left w before with old | ⟨root, mem, u, path⟩
      · exact .inl old
      · exact .inr ⟨root, List.mem_append_left _ mem, u,
          (first.corresponds_iff mem (left root mem) second.ext).mpr path⟩
    · exact .inr ⟨root, List.mem_append_right _ mem, u, path⟩
  each root mem formed u w path := by
    rcases List.mem_append.mp mem with mem | mem
    · obtain ⟨new, declared⟩ :=
        first.each root mem formed u w ((first.corresponds_iff mem formed second.ext).mp path)
      exact ⟨new, declared.extends second.ext⟩
    · obtain ⟨new, declared⟩ := second.each root mem formed u w path
      exact ⟨fun old => new (first.ext.made old), declared⟩
  distinct := by
    rw [List.map_append, List.nodup_append]
    refine ⟨first.distinct, second.distinct, ?_⟩
    intro v left w right same
    obtain ⟨root, mem, rfl⟩ := List.mem_map.mp left
    obtain ⟨other, mem', rfl⟩ := List.mem_map.mp right
    exact (second.tops other mem').1 (same ▸ (first.tops root mem).2.made)

/-- **A cell on top** of declared components is declared. -/
theorem mount {parts : List Handle} (plants : Plants (t.components.zip parts) h h')
    (matched : parts.length = t.components.length) :
    Plants [(t, ⟨h'.size⟩)] h (h'.push ⟨t.initial parts, false⟩) := by
  have more := extends_push h' ⟨t.initial parts, false⟩
  have cell : (h'.push ⟨t.initial parts, false⟩).cell ⟨h'.size⟩ = ⟨t.initial parts, false⟩ :=
    cell_push_new h' _
  have component : t.WellFormed → ∀ a,
      (h'.push ⟨t.initial parts, false⟩).Component (t, ⟨h'.size⟩) a ↔
      a ∈ t.components.zip parts := by
    intro formed a
    rw [Component, Heap.parts, data, cell, TypeDesc.parts_initial formed matched]
  have inner : t.WellFormed → ∀ a ∈ t.components.zip parts, a.1.WellFormed := fun formed a mem =>
    formed.component (List.of_mem_zip (a := a.1) (b := a.2) mem).1
  have distinct : parts.Nodup := by
    have names : (t.components.zip parts).map (·.2) = parts := List.map_snd_zip matched.le
    exact names ▸ plants.distinct
  have top : ¬ h.Made ⟨h'.size⟩ ∧ (h'.push ⟨t.initial parts, false⟩).Declared t ⟨h'.size⟩ :=
    ⟨fun old => not_made_next h' (plants.ext.made old), parts, cell, matched, distinct⟩
  refine ⟨plants.ext.trans more, ?_, ?_, ?_, by simp⟩
  · intro a mem
    obtain rfl := List.mem_singleton.mp mem
    exact top
  · intro each w made
    have formed : t.WellFormed := each _ (List.mem_singleton_self _)
    rcases made_push.mp made with before | rfl
    · rcases plants.covers (inner formed) w before with old | ⟨a, mem, u, path⟩
      · exact .inl old
      · refine .inr ⟨_, List.mem_singleton_self _, u, .head ((component formed a).mpr mem) ?_⟩
        exact (plants.corresponds_iff mem (inner formed a mem) more).mpr path
    · exact .inr ⟨_, List.mem_singleton_self _, t, .refl⟩
  · intro a mem formed u w path
    obtain rfl := List.mem_singleton.mp mem
    rcases path.cases_head with same | ⟨a, first, rest⟩
    · obtain ⟨rfl, rfl⟩ := Prod.mk.inj same
      exact top
    · have mem := (component formed a).mp first
      have below := (plants.corresponds_iff mem (inner formed a mem) more).mp rest
      exact (plants.each a mem (inner formed a mem) u w below).imp id (·.extends more)

end Plants

/-- Types that are declared one after the other. -/
theorem plants_mapM {ts : List TypeDesc}
    (each : ∀ t ∈ ts, ∀ h, ∃ v h', HeapM.declare t h = .ok v h' ∧ Plants [(t, v)] h h') (h : Heap) :
    ∃ vs h', ts.mapM HeapM.declare h = .ok vs h' ∧ vs.length = ts.length ∧
      Plants (ts.zip vs) h h' := by
  induction ts generalizing h with
  | nil => exact ⟨[], h, rfl, rfl, .nothing h⟩
  | cons t ts ih =>
    obtain ⟨v, h₁, first, plants⟩ := each t List.mem_cons_self h
    obtain ⟨vs, h₂, rest, matched, more⟩ := ih (fun e mem => each e (List.mem_cons_of_mem t mem)) h₁
    refine ⟨v :: vs, h₂, ?_, congrArg (· + 1) matched, plants.append more⟩
    rw [List.mapM_cons, HeapM.bind_of_ok first, HeapM.bind_of_ok rest]
    rfl

/-- **Every type can be declared**, in every heap. -/
theorem plants_declare (t : TypeDesc) (h : Heap) :
    ∃ v h', HeapM.declare t h = .ok v h' ∧ Plants [(t, v)] h h' := by
  induction t using TypeDesc.induction generalizing h with
  | step t ih =>
    obtain ⟨parts, h₁, ran, matched, plants⟩ := plants_mapM ih h
    refine ⟨_, _, ?_, plants.mount matched⟩
    rw [HeapM.declare_eq, HeapM.bind_of_ok ran]
    rfl

end Heap

/-! ## What a declared value says of itself -/

namespace TypeDesc

/-- The contents are what the type asks of a fresh value. -/
def Declares : TypeDesc → Data Handle → Prop
  | .null, d => d = .leaf .null
  | .boolean, d => d = .leaf (.boolean false)
  | .integer, d => d = .leaf (.integer 0 none)
  | .rangedInteger b, d =>
    ∃ i, d = .leaf (.integer i (some b)) ∧ b.least ≤ i ∧ i ≤ b.greatest ∧
      (b.least ≤ 0 → 0 ≤ b.greatest → i = 0)
  | .real, d => d = .leaf (.real 0 none)
  | .rangedReal b, d => d = .leaf (.real (.ofFloat b.startReal) (some b))
  | .string, d => d = .leaf (.string "")
  | .dictionary, d => d = .dictionary .empty
  | .array start finish element policy, d =>
    ∃ q, d = .array q ∧ q.start = start ∧ q.finish = finish ∧
      (q.length : Int) = finish.toInt - start.toInt + 1 ∧ q.element = some element ∧
      q.policy = policy
  | .record name members, d =>
    ∃ r, d = .record r ∧ r.type = some ⟨name, members⟩ ∧ r.members.map (·.1) = members.map (·.1)

end TypeDesc

/-- An array that fills a range ends where the range does. -/
theorem Sequence.finish_eq {ρ : Type} {q : Sequence ρ} {finish : Integer}
    (fills : (q.length : Int) = finish.toInt - q.start.toInt + 1) : q.finish = finish := by
  have least := Integer.least_le_toInt finish
  have greatest := Integer.toInt_le_greatest finish
  apply Int64.toInt_inj.mp
  rw [Sequence.finish, Integer.toInt_saturate]
  omega

namespace Heap

variable {h : Heap} {t : TypeDesc} {v : Handle}

/-- **What is declared** is what the type asks of a fresh value. -/
theorem Declared.declares (declared : h.Declared t v) (formed : t.WellFormed)
    (counted : t.Counted) : t.Declares (h.data v) := by
  obtain ⟨parts, cell, matched, -⟩ := declared
  have held : h.data v = t.initial parts := by rw [data, cell]
  rw [held]
  cases t with
  | rangedInteger b =>
    have inside := Bounds.holds_start b
    rw [Bounds.holds, Bool.and_eq_true, decide_eq_true_iff, decide_eq_true_iff] at inside
    refine ⟨b.start, rfl, inside.1, inside.2, ?_⟩
    intro below above
    have zero : b.holds 0 = true := by simp [Bounds.holds, below, above]
    rw [Bounds.start, if_pos zero]
  | array start finish element policy =>
    have fills : (parts.length : Int) = finish.toInt - start.toInt + 1 := by
      rw [matched, TypeDesc.components, List.length_replicate]
      exact TypeDesc.toInt_slots formed.1 counted.1
    exact ⟨.declared start parts element policy, rfl, rfl, Sequence.finish_eq fills,
      fills, rfl, rfl⟩
  | record name members =>
    have length : parts.length = members.length := by simpa [TypeDesc.components] using matched
    refine ⟨_, rfl, rfl, ?_⟩
    rw [TypeDesc.members_declared formed.1 length, List.map_fst_zip (by simp [length])]
  | _ => rfl

/-- The type is read off again at one level: structures and arrays keep the type that they were
declared from. -/
theorem Declared.describeTo (declared : h.Declared t v) (formed : t.WellFormed)
    (counted : t.Counted) (typed : t ≠ .null) (n : Nat) :
    h.describeTo (n + 1) v = .ok (some t) := by
  have declares := declared.declares formed counted
  unfold Heap.describeTo
  cases t with
  | null => exact absurd rfl typed
  | rangedInteger b =>
    obtain ⟨i, held, -⟩ := declares
    rw [held]
    rfl
  | array start finish element policy =>
    obtain ⟨q, held, rfl, rfl, -, item, rfl⟩ := declares
    rw [held]
    simp only [describeElement, item, TypeDesc.ofRange, if_neg (Int.not_lt.mpr formed.1)]
    rfl
  | record name members =>
    obtain ⟨⟨_, fields⟩, held, rfl, -⟩ := declares
    rw [held]
    rfl
  | _ => simp only [show h.data v = _ from declares, Leaf.describe]

/-- What passes down from types to their components holds of every type next to a value inside. -/
theorem Corresponds.down {P : TypeDesc → Prop} (pass : ∀ {t e}, P t → e ∈ t.components → P e)
    {a b : TypeDesc × Handle} (path : h.Corresponds a b) (top : P a.1) : P b.1 := by
  induction path with
  | refl => exact top
  | tail _ last ih => exact pass ih (List.of_mem_zip last).1

/-- Every part has a component next to it if there are as many of both. -/
theorem exists_component (matched : (h.parts v).length = t.components.length) {p : Handle}
    (part : p ∈ h.parts v) : ∃ e ∈ t.components, h.Component (t, v) (e, p) := by
  obtain ⟨i, lt, rfl⟩ := List.mem_iff_getElem.mp part
  have lt' : i < t.components.length := matched ▸ lt
  refine ⟨t.components[i], List.getElem_mem lt', ?_⟩
  rw [Component, List.mem_iff_getElem]
  exact ⟨i, by simp [lt, lt'], by simp⟩

end Heap

namespace HeapM

variable {h h' : Heap} {t : TypeDesc} {v type : Handle}

/-- The type of what is no type itself is read off it. -/
theorem typeOf_eq (plain : ∀ t, h.data v ≠ .leaf (.type t)) :
    typeOf v h = ((ask fun h => h.describeTo h.levels v) >>=
      fun d => d.elim newNull fun t => newLeaf (.type t)) h := by
  have looked : dataOf v h = .ok (h.data v) h := rfl
  unfold typeOf
  rw [bind_of_ok looked]
  cases contents : h.data v with
  | leaf l =>
    cases l with
    | type t => exact absurd contents (plain t)
    | _ => exact congrFun (congrArg (Bind.bind _) (funext fun d => by cases d <;> rfl)) h
  | _ => exact congrFun (congrArg (Bind.bind _) (funext fun d => by cases d <;> rfl)) h

theorem typeOf_of_described (plain : ∀ t, h.data v ≠ .leaf (.type t))
    (described : h.describeTo h.levels v = .ok (some t)) :
    typeOf v h = .ok ⟨h.size⟩ (h.push ⟨.leaf (.type t), false⟩) := by
  have asked : ask (fun h => h.describeTo h.levels v) h = .ok (some t) h := by rw [ask, described]
  rw [typeOf_eq plain, bind_of_ok asked]
  rfl

/-- **The type of a declared value** is the one that declared it. -/
theorem typeOf_of_declared (declared : h.Declared t v) (formed : t.WellFormed) (counted : t.Counted)
    (typed : t ≠ .null) : typeOf v h = .ok ⟨h.size⟩ (h.push ⟨.leaf (.type t), false⟩) := by
  apply typeOf_of_described
  · intro other same
    apply t.kind_ne_type
    rw [← declared.kind, Heap.kind, same]
    rfl
  · exact declared.describeTo formed counted typed h.size

/-- **Declarations conform.** A type that has been built, with array ranges that a word can count,
can be declared in every heap. Only unlocked cells are made, and each of them belongs to the value.
Down the value and its type, every cell is of the kind of the type next to it, its contents are what
that type asks for, it has a part of its own for every component, and its type is the one next to it
unless that is Null. -/
theorem declare_conforms {spec : TypeSpec} (built : spec.build = .ok t) (counted : t.Counted)
    (h : Heap) :
    ∃ v h', declare t h = .ok v h' ∧ h.Extends h' ∧
      (∀ w, h'.Made w → ¬ h.Made w → ∃ u, h'.Corresponds (t, v) (u, w)) ∧
      ∀ u w, h'.Corresponds (t, v) (u, w) →
        ¬ h.Made w ∧ h'.isLocked w = false ∧ h'.kind w = u.kind ∧ u.Declares (h'.data w) ∧
        (h'.parts w).length = u.components.length ∧ (h'.parts w).Nodup ∧
        (u ≠ .null → ∃ type h'', typeOf w h' = .ok type h'' ∧ h''.data type = .leaf (.type u)) := by
  have sound : t.WellFormed ∧ t.Counted := ⟨spec.wellFormed_of_build built, counted⟩
  obtain ⟨v, h', ran, plants⟩ := Heap.plants_declare t h
  refine ⟨v, h', ran, plants.ext, ?_, ?_⟩
  · intro w made new
    have formed : ∀ root ∈ [(t, v)], root.1.WellFormed :=
      fun root mem => List.mem_singleton.mp mem ▸ sound.1
    rcases plants.covers formed w made with old | ⟨root, mem, inside⟩
    · exact absurd old new
    · exact List.mem_singleton.mp mem ▸ inside
  · intro u w path
    obtain ⟨new, declared⟩ := plants.each _ (List.mem_singleton_self _) sound.1 u w path
    have inner : u.WellFormed ∧ u.Counted :=
      path.down (P := fun t => t.WellFormed ∧
        t.Counted) (fun both mem => ⟨both.1.component mem, both.2.component mem⟩) sound
    obtain ⟨matched, distinct⟩ := declared.parts inner.1
    refine ⟨new, declared.isLocked, declared.kind, declared.declares inner.1 inner.2,
      matched, distinct, ?_⟩
    intro typed
    refine ⟨_, _, typeOf_of_declared declared inner.1 inner.2 typed, ?_⟩
    rw [Heap.data, Heap.cell_push_new]

/-- Two dice, each of them a structure: the eyes of both are a number from 1 to 6 that starts
inside, and of the type of eyes. -/
theorem declare_conforms_dice :
    let eyes : Bounds Integer := ⟨1, 6, .rollover, by decide⟩
    let die := TypeDesc.record (some "Die") [("eyes", .rangedInteger eyes)]
    (TypeSpec.array 0 1 (.record (some "Die") [("eyes", .rangedInteger 1 6 .rollover)])
      .cap).build = .ok (.array 0 1 die .cap) ∧ (TypeDesc.array 0 1 die .cap).Counted ∧
      ∃ v h', declare (.array 0 1 die .cap) .empty = .ok v h' ∧ (h'.parts v).length = 2 ∧
        ∀ d ∈ h'.parts v, h'.kind d = .record ∧
          ∀ e ∈ h'.parts d, (∃ i, h'.data e = .leaf (.integer i (some eyes)) ∧ 1 ≤ i ∧ i ≤ 6) ∧
            ∃ type h'', typeOf e h' = .ok type h'' ∧
            h''.data type = .leaf (.type (.rangedInteger eyes)) := by
  intro eyes die
  have built : (TypeSpec.array 0 1
      (.record (some "Die") [("eyes", .rangedInteger 1 6 .rollover)]) .cap).build =
      .ok (.array 0 1 die .cap) := rfl
  have counted : (TypeDesc.array 0 1 die .cap).Counted := ⟨by decide, trivial, trivial⟩
  obtain ⟨v, h', ran, -, -, each⟩ := declare_conforms built counted .empty
  obtain ⟨-, -, -, -, two, -⟩ := each _ v .refl
  refine ⟨built, counted, v, h', ran, two, ?_⟩
  intro d part
  obtain ⟨u, mem, top⟩ := Heap.exists_component two part
  obtain rfl := List.eq_of_mem_replicate mem
  obtain ⟨-, -, kind, -, one, -⟩ := each die d (.single top)
  refine ⟨kind, ?_⟩
  intro e inner
  obtain ⟨u, mem, below⟩ := Heap.exists_component one inner
  obtain rfl := List.mem_singleton.mp mem
  obtain ⟨-, -, -, ⟨i, held, above, under, -⟩, -, -, typed⟩ :=
    each (.rangedInteger eyes) e (.tail (.single top) below)
  exact ⟨⟨i, held, above, under⟩, typed (by simp)⟩

end HeapM

/-! ## Types that are read off arrays -/

/-- The range of an array has as many slots as the array has elements if its last index is an
integer, and a word can count them. -/
theorem Sequence.slots_finish_iff {ρ : Type} (q : Sequence ρ) :
    TypeDesc.slots q.start q.finish = q.length ↔
      Integer.least ≤ q.start.toInt + q.length - 1 ∧
      q.start.toInt + q.length - 1 ≤ Integer.greatest ∧
        q.length < 18446744073709551616 := by
  have low := Integer.least_le_toInt q.start
  have high := Integer.toInt_le_greatest q.start
  rw [TypeDesc.slots, Sequence.finish, Integer.toInt_saturate]
  simp only [Integer.least, Integer.greatest] at low high ⊢
  omega

/-- The range of an array is not inverted, so its type can be read off as soon as that of its
elements can. -/
theorem Heap.describeTo_array {h : Heap} {v : Handle} {q : Sequence Handle}
    (held : h.data v = .array q) (n : Nat) :
    h.describeTo (n + 1) v =
      (describeElement (h.describeTo n) q).map fun element =>
        some (.array q.start q.finish element q.policy) := by
  have ordered : ¬ q.finish.toInt < q.start.toInt - 1 := by
    have low := Integer.least_le_toInt q.start
    have high := Integer.toInt_le_greatest q.start
    rw [Sequence.finish, Integer.toInt_saturate]
    omega
  unfold Heap.describeTo
  rw [held]
  simp only [TypeDesc.ofRange, if_neg ordered]
  cases describeElement (h.describeTo n) q <;> rfl

namespace HeapM

variable {h h' : Heap} {v type : Handle} {q : Sequence Handle}

/-- The type of an array is its range with the type of its elements. -/
theorem typeOf_of_element (held : h.data v = .array q) {element : TypeDesc}
    (found : describeElement (h.describeTo h.size) q = .ok element) :
    typeOf v h = .ok ⟨h.size⟩
      (h.push ⟨.leaf (.type (.array q.start q.finish element q.policy)), false⟩) := by
  apply typeOf_of_described (by simp [held])
  rw [Heap.levels, Heap.describeTo_array held, found]
  rfl

theorem typeOf_array (held : h.data v = .array q) (typed : typeOf v h = .ok type h') :
    ∃ element, h'.data type = .leaf (.type (.array q.start q.finish element q.policy)) := by
  cases found : describeElement (h.describeTo h.size) q with
  | error f =>
    have asked : ask (fun h => h.describeTo h.levels v) h = .error f h := by
      rw [ask, Heap.levels, Heap.describeTo_array held, found]
      rfl
    rw [typeOf_eq (by simp [held]), bind_of_error asked] at typed
    cases typed
  | ok element =>
    rw [typeOf_of_element held found] at typed
    cases typed
    exact ⟨element, by rw [Heap.data, Heap.cell_push_new]⟩

/-- **The type of an array declares its range**: an array with the same start and the same policy.
It has the same length exactly if the last index is an integer, the one before the start for an
empty array, and there are fewer than `2 ^ 64` elements. -/
theorem declareFrom_typeOf_array (held : h.data v = .array q) (typed : typeOf v h = .ok type h') :
    ∃ w h'' p, declareFrom type h' = .ok w h'' ∧ h''.data w = .array p ∧ p.start = q.start ∧
      p.policy = q.policy ∧ (p.length = q.length ↔
        Integer.least ≤ q.start.toInt + q.length - 1 ∧
        q.start.toInt + q.length - 1 ≤ Integer.greatest ∧
          q.length < 18446744073709551616) := by
  obtain ⟨element, found⟩ := typeOf_array held typed
  obtain ⟨w, h'', ran, plants⟩ := Heap.plants_declare (.array q.start q.finish element q.policy) h'
  obtain ⟨-, parts, cell, matched, -⟩ := plants.tops _ (List.mem_singleton_self _)
  refine ⟨w, h'', .declared q.start parts element q.policy, ?_,
    by rw [Heap.data, cell]; rfl, rfl, rfl, ?_⟩
  · have looked : dataOf type h' = .ok (.leaf (.type (.array q.start q.finish element q.policy)))
        h' := by rw [dataOf, look, found]
    unfold declareFrom
    rw [bind_of_ok looked]
    exact ran
  · have length : (Sequence.declared q.start parts element q.policy).length =
        TypeDesc.slots q.start q.finish := by
      rw [Sequence.length, Sequence.declared, matched, TypeDesc.components, List.length_replicate]
    rw [length]
    exact q.slots_finish_iff

/-- Two elements up to the greatest integer. -/
theorem declareFrom_typeOf_array_last :
    let h := (Session.after (.bare .default)
      [.hold "last" (.array 9223372036854775806 [.literal (.integer 1),
        .literal (.integer 2)] .cap)]).heap
    ∃ type h' w h'' p, typeOf ⟨2⟩ h = .ok type h' ∧ declareFrom type h' = .ok w h'' ∧
      h''.data w = .array p ∧ p.start = 9223372036854775806 ∧ p.policy = .cap ∧ p.length = 2 := by
  intro h
  have held : h.data ⟨2⟩ = .array (.ofItems 9223372036854775806 [⟨0⟩, ⟨1⟩] .cap) := rfl
  have typed := typeOf_of_element held (rfl : _ = Except.ok TypeDesc.integer)
  obtain ⟨w, h'', p, ran, made, start, policy, length⟩ := declareFrom_typeOf_array held typed
  exact ⟨_, _, w, h'', p, typed, ran, made, start, policy, length.mpr (by decide)⟩

/-- An array without elements at the least integer, and two elements from the greatest one on: their
types declare one element. -/
theorem declareFrom_typeOf_array_ends :
    let h := (Session.after (.bare .default)
      [.hold "none" (.array (-9223372036854775808) [] .refuse),
        .hold "two" (.array 9223372036854775807 [.literal (.integer 1),
          .literal (.integer 2)] .refuse)]).heap
    (∃ q type h' w h'' p, h.data ⟨0⟩ = .array q ∧ typeOf ⟨0⟩ h = .ok type h' ∧
      declareFrom type h' = .ok w h'' ∧ h''.data w = .array p ∧ q.length = 0 ∧ p.length = 1) ∧
    (∃ q type h' w h'' p, h.data ⟨3⟩ = .array q ∧ typeOf ⟨3⟩ h = .ok type h' ∧
      declareFrom type h' = .ok w h'' ∧ h''.data w = .array p ∧ q.length = 2 ∧ p.length = 1) := by
  intro h
  exact ⟨⟨_, _, _, _, _, _, rfl, rfl, rfl, rfl, rfl, rfl⟩,
    ⟨_, _, _, _, _, _, rfl, rfl, rfl, rfl, rfl, rfl⟩⟩

end HeapM

end ScriptHost
