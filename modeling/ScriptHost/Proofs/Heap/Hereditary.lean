import ScriptHost.Heap.Describe
import ScriptHost.Library.Version
import ScriptHost.Proofs.Heap.Assign

/-!
# What contents pass on

Operations on values make new contents out of old ones, and in a few ways only: parts are replaced
under the keys that there are, an entry is put into a dictionary or dropped, overloads are merged,
and a function is made from its text. A property of contents that all of them pass on is
`Data.Hereditary`. If all contents of a heap have it (`Heap.All`), then so do they after every
operation on values, whatever it is given: every operation keeps to the course `Heap.all`.

Two properties are hereditary. A dictionary is a list of entries and an executable a list of
overloads; nothing in the lists themselves keeps a key or an arity from standing in them twice, but
no operation ever puts one there that is there already (`Data.Distinct`). And no operation makes up
a callable (`Data.Runs`).
-/

set_option autoImplicit false

namespace ScriptHost

open Course

/-! ## Dictionaries -/

namespace Dictionary

variable {ρ σ : Type} {k j : Key} {v : ρ} {es : List (Key × ρ)}

/-- No two of the keys are the same. -/
def Distinct (d : Dictionary ρ) : Prop := d.entries.Pairwise fun a b => a.1.same b.1 = false

/-- What stands under one key after a value has been put under it was there or is that key. -/
theorem same_of_mem_put {p : Key × ρ} (mem : p ∈ put k v es) : (∃ q ∈ es, q.1 = p.1) ∨ p.1 = k := by
  induction es with
  | nil => simp_all [put]
  | cons e es ih =>
    simp only [put] at mem
    split at mem
    · rcases List.mem_cons.mp mem with rfl | mem
      · exact .inl ⟨e, by simp, rfl⟩
      · exact .inl ⟨p, by simp [mem], rfl⟩
    · rcases List.mem_cons.mp mem with rfl | mem
      · exact .inl ⟨_, by simp, rfl⟩
      · rcases ih mem with ⟨q, inside, same⟩ | new
        · exact .inl ⟨q, by simp [inside], same⟩
        · exact .inr new

/-- A key that is there is overwritten in its place, and another one is added, so no key comes
twice. -/
theorem Distinct.insert {d : Dictionary ρ} (distinct : d.Distinct) (k : Key) (v : ρ) :
    (d.insert k v).Distinct := by
  have put : ∀ es : List (Key × ρ), es.Pairwise (fun a b => a.1.same b.1 = false) →
      (Dictionary.put k v es).Pairwise fun a b => a.1.same b.1 = false := by
    intro es apart
    induction es with
    | nil => simp [Dictionary.put]
    | cons e es ih =>
      obtain ⟨first, rest⟩ := List.pairwise_cons.mp apart
      simp only [Dictionary.put]
      split
      · exact List.pairwise_cons.mpr ⟨first, rest⟩
      next other =>
        refine List.pairwise_cons.mpr ⟨fun p mem => ?_, ih rest⟩
        rcases same_of_mem_put mem with ⟨q, inside, same⟩ | new
        · rw [← same]
          exact first q inside
        · rw [new]
          simpa using other
  exact put d.entries distinct

/-- An entry is dropped and the others stay. -/
theorem drop_sublist (k : Key) (es : List (Key × ρ)) : (drop k es).Sublist es := by
  induction es with
  | nil => exact .slnil
  | cons e es ih =>
    simp only [drop]
    split
    · exact List.sublist_cons_self _ _
    · exact ih.cons_cons _

/-- No key comes twice when one is taken. -/
theorem Distinct.erase {d : Dictionary ρ} (distinct : d.Distinct) (k : Key) :
    (d.erase k).Distinct :=
  List.Pairwise.sublist (drop_sublist k d.entries) distinct

/-- Other values under the same keys. -/
theorem Distinct.of_keys {d : Dictionary ρ} {e : Dictionary σ} (distinct : d.Distinct)
    (same : e.keys = d.keys) : e.Distinct := by
  have keys : d.keys.Pairwise fun a b => a.same b = false := List.pairwise_map.mpr distinct
  rw [← same] at keys
  exact List.pairwise_map.mp keys

end Dictionary

/-! ## Executables -/

namespace Executable

/-- An overload that is placed in order is one more overload. -/
theorem place_perm (c : Callable) (cs : List Callable) : (place c cs).Perm (c :: cs) := by
  induction cs with
  | nil => exact .refl _
  | cons d ds ih =>
    unfold place
    split
    · exact .refl _
    · exact (ih.cons d).trans (.swap c d ds)

/-- A merge has the overloads of both executables. -/
theorem perm_of_merge {a b c : Executable} (run : a.merge b = .ok c) :
    c.overloads.Perm (b.overloads ++ a.overloads) := by
  have placed : ∀ others cs : List Callable,
      (others.foldl (fun cs c => place c cs) cs).Perm (others ++ cs) := by
    intro others
    induction others with
    | nil => exact fun cs => .refl _
    | cons d ds ih =>
      intro cs
      refine (ih (place d cs)).trans ?_
      exact ((place_perm d cs).append_left ds).trans List.perm_middle
  unfold merge at run
  split at run
  · cases run
  · cases run
    exact placed b.overloads a.overloads

/-- An arity that both have is refused, so the arities of a merge differ if those of its parts
do. -/
theorem arities_nodup_of_merge {a b c : Executable} (run : a.merge b = .ok c)
    (first : a.arities.Nodup) (second : b.arities.Nodup) : c.arities.Nodup := by
  have arities : c.arities.Perm (b.arities ++ a.arities) := by
    simpa only [Executable.arities, List.map_append] using (perm_of_merge run).map Callable.arity
  refine arities.nodup_iff.mpr (List.nodup_append'.mpr ⟨second, first, fun n mem both => ?_⟩)
  unfold merge at run
  split at run
  · cases run
  next none =>
    have absent := List.find?_eq_none.mp none n mem
    exact absent (by simpa using both)

end Executable

/-! ## Contents -/

/-- A leaf that is no executable. -/
class Leaf.Plain (l : Leaf) : Prop where
  other : l.kind ≠ .executable

instance : Leaf.null.Plain := ⟨by decide⟩

instance (t : TypeDesc) : (Leaf.type t).Plain := ⟨by simp [Leaf.kind]⟩

instance (b : Bool) : (Leaf.boolean b).Plain := ⟨by simp [Leaf.kind]⟩

instance (i : Integer) (b : Option (Bounds Integer)) : (Leaf.integer i b).Plain :=
  ⟨by simp [Leaf.kind]⟩

instance (r : Double) (b : Option (Bounds Float)) : (Leaf.real r b).Plain := ⟨by simp [Leaf.kind]⟩

instance (s : String) : (Leaf.string s).Plain := ⟨by simp [Leaf.kind]⟩

instance (k : Key) : k.toLeaf.Plain := by cases k <;> exact ⟨by simp [Key.toLeaf, Leaf.kind]⟩

/-- A property of contents that is passed on to all that is made of them. Contents that nothing else
is made of have it anyway. -/
class Data.Hereditary (D : Data Handle → Prop) : Prop where
  leaf : ∀ (l : Leaf) [l.Plain], D (.leaf l)
  array : ∀ s : Sequence Handle, D (.array s)
  record : ∀ r : Record Handle, r.names.Nodup → D (.record r)
  refilled : ∀ {r q : Record Handle}, D (.record r) → q.names = r.names → D (.record q)
  noEntries : D (.dictionary .empty)
  insert : ∀ {d : Dictionary Handle} (k : Key) (v : Handle), D (.dictionary d) →
    D (.dictionary (d.insert k v))
  erase : ∀ {d : Dictionary Handle} (k : Key), D (.dictionary d) → D (.dictionary (d.erase k))
  rekeyed : ∀ {d e : Dictionary Handle}, D (.dictionary d) → e.keys = d.keys → D (.dictionary e)
  merged : ∀ {a b c : Executable}, a.merge b = .ok c → D (.leaf (.executable a)) →
    D (.leaf (.executable b)) → D (.leaf (.executable c))

/-- A function with this body has the property. -/
def Body.Suits (D : Data Handle → Prop) (body : Body) : Prop :=
  ∀ c : Callable, c.body = body → Callable.checkParams c.params = .ok () →
    D (.leaf (.executable (.single c)))

/-- What can be read as an executable is one. -/
theorem Data.eq_of_asExecutable {ρ : Type} {d : Data ρ} {e : Executable}
    (read : d.asExecutable? = some e) : d = .leaf (.executable e) := by
  unfold asExecutable? at read
  split at read
  · cases read
    rfl
  · cases read

/-- Contents that differ in their parts only. -/
theorem Data.Matches.inherits {D : Data Handle → Prop} [law : Hereditary D]
    {R : Handle → Handle → Prop} {d e : Data Handle} (matched : d.Matches R e) (has : D d) :
    D e := by
  cases matched with
  | leaf l => exact has
  | array s items each => exact law.array _
  | dictionary d entries each =>
    have keys : d.keys = (Dictionary.mk entries).keys :=
      map_eq_of_forall₂ (fun _ _ related => related.1) each
    exact law.rekeyed has keys.symm
  | record r members each =>
    have names : r.names = Record.names ⟨r.type, members⟩ :=
      map_eq_of_forall₂ (fun _ _ related => related.1) each
    exact law.refilled has names.symm

/-! ### No key, no name and no arity twice -/

/-- No key of a dictionary, no name of a record and no arity of an executable is there twice. -/
structure Data.Distinct (d : Data Handle) : Prop where
  keys : ∀ e, d = .dictionary e → e.Distinct
  names : ∀ r, d = .record r → r.names.Nodup
  arities : d.arities.Nodup

namespace Data

theorem distinct_dictionary {d : Dictionary Handle} (distinct : d.Distinct) :
    (Data.dictionary d).Distinct := by
  refine ⟨fun e same => ?_, nofun, List.nodup_nil⟩
  cases same
  exact distinct

theorem distinct_record {r : Record Handle} (distinct : r.names.Nodup) :
    (Data.record r).Distinct := by
  refine ⟨nofun, fun q same => ?_, List.nodup_nil⟩
  cases same
  exact distinct

theorem distinct_executable {e : Executable} (distinct : e.arities.Nodup) :
    (Data.leaf (.executable e)).Distinct :=
  ⟨nofun, nofun, distinct⟩

instance distinct_hereditary : Hereditary Distinct where
  leaf l plain := by
    refine ⟨nofun, nofun, ?_⟩
    cases l with
    | executable e => exact absurd rfl plain.other
    | _ => exact List.nodup_nil
  array s := ⟨nofun, nofun, List.nodup_nil⟩
  record r distinct := distinct_record distinct
  refilled distinct same := distinct_record (same ▸ distinct.names _ rfl)
  noEntries := distinct_dictionary List.Pairwise.nil
  insert k v distinct := distinct_dictionary ((distinct.keys _ rfl).insert k v)
  erase k distinct := distinct_dictionary ((distinct.keys _ rfl).erase k)
  rekeyed distinct same := distinct_dictionary ((distinct.keys _ rfl).of_keys same)
  merged run first second :=
    distinct_executable (Executable.arities_nodup_of_merge run first.arities second.arities)

/-- A function that has just been made has one arity. -/
theorem distinct_suits (body : Body) : body.Suits Distinct :=
  fun c _ _ => distinct_executable (List.nodup_singleton c.arity)

/-! ### No callable made up -/

/-- The callables of an executable are among some. -/
def Runs (C : Callable → Prop) (d : Data Handle) : Prop :=
  ∀ e, d.asExecutable? = some e → ∀ c ∈ e.overloads, C c

variable {C : Callable → Prop}

/-- Only executables hold callables. -/
theorem runs_of_kind {d : Data Handle} (other : d.kind ≠ .executable) : d.Runs C := by
  intro e read
  unfold asExecutable? at read
  split at read
  · exact absurd rfl other
  · cases read

theorem runs_executable {e : Executable} (all : ∀ c ∈ e.overloads, C c) :
    (Data.leaf (.executable e)).Runs C := by
  rintro _ ⟨⟩
  exact all

instance runs_hereditary : Hereditary (Runs C) where
  leaf l plain := runs_of_kind plain.other
  array s := runs_of_kind nofun
  record r _ := runs_of_kind nofun
  refilled _ _ := runs_of_kind nofun
  noEntries := runs_of_kind nofun
  insert k v _ := runs_of_kind nofun
  erase k _ := runs_of_kind nofun
  rekeyed _ _ := runs_of_kind nofun
  merged run first second := by
    refine runs_executable fun c mem => ?_
    rcases List.mem_append.mp ((Executable.perm_of_merge run).mem_iff.mp mem) with mem | mem
    · exact second _ rfl c mem
    · exact first _ rfl c mem

/-- A function that has just been made runs its own body. -/
theorem runs_suits {body : Body}
    (good : ∀ c : Callable, c.body = body → Callable.checkParams c.params = .ok () → C c) :
    body.Suits (Runs C) := by
  intro c same checked
  refine runs_executable fun d mem => ?_
  obtain rfl := List.mem_singleton.mp mem
  exact good d same checked

end Data

/-! ## Heaps -/

namespace Heap

/-- All contents have a property. -/
def All (D : Data Handle → Prop) (h : Heap) : Prop := ∀ v, D (h.data v)

/-- Heaps whose contents have a property, which go over into any others. -/
def all (D : Data Handle → Prop) : Course Heap where
  holds := All D
  goes _ _ := True
  refl _ := trivial
  trans _ _ := trivial

variable {D : Data Handle → Prop} [law : Data.Hereditary D] {h : Heap} {v : Handle}

theorem empty_all : empty.All D := by
  intro v
  rw [data, cell_of_not_made (not_made_empty v)]
  exact law.leaf _

omit law in
/-- One more cell with allowed contents. -/
theorem All.push {c : Cell} (all : h.All D) (new : D c.data) : (h.push c).All D := by
  intro v
  by_cases here : v = ⟨h.size⟩
  · subst here
    rwa [data, cell_push_new]
  · rw [data_push_ne here]
    exact all v

/-- A cell with new allowed contents. -/
theorem All.setCell {c : Cell} (all : h.All D) (new : D c.data) : (h.setCell v c).All D := by
  intro w
  by_cases here : w = v
  · subst here
    by_cases made : h.Made w
    · rwa [data, cell_setCell_self h w _ made]
    · have none : ¬ (h.setCell w c).Made w := by simpa using made
      rw [data, cell_of_not_made none]
      exact law.leaf _
  · rw [data_congr (cell_setCell_ne h _ here)]
    exact all w

end Heap

namespace HeapM

open Heap

variable {D : Data Handle → Prop} [law : Data.Hereditary D] {α : Type} {target value key : Handle}

/-! ## New cells, locks and copies -/

omit law in
/-- A new cell has to have allowed contents. -/
theorem inherits_alloc {c : Cell} (new : D c.data) : (all D).KeptBy (alloc c) :=
  ⟨fun _ held => .of_ok rfl (held.push new) trivial trivial⟩

omit law in
theorem inherits_new {d : Data Handle} (new : D d) : (all D).KeptBy (HeapM.new d) :=
  inherits_alloc new

instance inherits_newLeaf (l : Leaf) [plain : l.Plain] : (all D).KeptBy (newLeaf l) :=
  inherits_alloc (law.leaf l)

instance inherits_newNull : (all D).KeptBy newNull := inherits_alloc (law.leaf _)

/-- So does a cell that is written. -/
theorem inherits_write {d : Data Handle} (new : D d) : (all D).KeptBy (write target d) :=
  ⟨fun _ held => Leads.write held fun _ => ⟨held.setCell new, trivial, trivial⟩⟩

instance inherits_lockCell (v : Handle) : (all D).KeptBy (lockCell v) :=
  ⟨fun _ held => .of_ok rfl (held.setCell (held v)) trivial trivial⟩

instance inherits_lockTo (n : Nat) (v : Handle) : (all D).KeptBy (lockTo n v) := by
  induction n generalizing v with
  | zero => exact .pure _
  | succ n ih =>
    unfold lockTo
    infer_instance

instance inherits_lock (v : Handle) : (all D).KeptBy (lock v) := by
  unfold lock
  infer_instance

omit law in
/-- Bodies come in here. -/
theorem inherits_newFunction {body : Body} (suits : body.Suits D) (name : String)
    (params : List Param) : (all D).KeptBy (newFunction name params body) := by
  refine ⟨fun h held => Leads.ofBind held fun _ checked => ?_⟩
  have callable : (all D).Leads (newCallable name params body) h fun c _ => c.body = body ∧
      c.params = params :=
    .of_ok rfl held trivial ⟨rfl, rfl⟩
  refine callable.bind fun c t held _ made => (inherits_alloc (suits c made.1 ?_)).leads t held
  rw [made.2]
  exact checked

/-- Copies never fail, and inherit from their sources. -/
theorem yields_copyTo {h : Heap} (held : h.All D) (keepLocks : Bool) (n : Nat) (v : Handle) :
    (all D).Yields (copyTo keepLocks n v) h fun _ _ => True := by
  induction n generalizing h v with
  | zero => exact ⟨_, _, rfl, held.push (law.leaf _), trivial, trivial⟩
  | succ n ih =>
    have parts := Data.mapM_yields (C := all D) (M := fun _ _ _ => True) (h.data v)
      (fun _ _ _ _ _ _ _ => trivial) held fun p _ _ held _ => ih held p
    exact parts.bind (f := fun d => alloc ⟨d, keepLocks && h.isLocked v⟩) fun d t after _ matched =>
      ⟨_, _, rfl, after.push (matched.inherits (held v)), trivial, trivial⟩

/-- Contents are copied to allowed ones. -/
theorem yields_copyData {h : Heap} (held : h.All D) (v : Handle) :
    (all D).Yields (copyData v) h fun d _ => D d := by
  have parts := Data.mapM_yields (C := all D) (M := fun _ _ _ => True) (h.data v)
    (fun _ _ _ _ _ _ _ => trivial) held fun p _ _ held _ => yields_copyTo held false h.levels p
  exact parts.weaken fun d _ _ _ matched => matched.inherits (held v)

instance inherits_copyTo (keepLocks : Bool) (n : Nat) (v : Handle) :
    (all D).KeptBy (copyTo keepLocks n v) :=
  ⟨fun _ held => (yields_copyTo held keepLocks n v).leads⟩

instance inherits_copy (v : Handle) : (all D).KeptBy (copy v) := by
  unfold copy
  infer_instance

instance inherits_duplicate (kind : CloneKind) (v : Handle) :
    (all D).KeptBy (duplicate kind v) := by
  unfold duplicate
  cases kind with
  | deep => exact inherits_copy v
  | minimal | shallow => exact ⟨fun h held => Leads.lookBind ((inherits_new (held v)).leads h held)⟩

instance inherits_cloneWith (kind : CloneKind) (v : Handle) :
    (all D).KeptBy (cloneWith kind v) := by
  unfold cloneWith
  cases kind with
  | deep => exact .bind _ _
  | minimal | shallow =>
    exact ⟨fun h held => Leads.lookBind ((inherits_alloc (held v)).leads h held)⟩

/-! ## Containers -/

instance inherits_dataOf : (all D).KeptBy (dataOf value) := .look _

instance inherits_kindOf : (all D).KeptBy (kindOf value) := .look _

instance inherits_asBoolean : (all D).KeptBy (asBoolean value) := .ask _

instance inherits_asString : (all D).KeptBy (asString value) := .ask _

instance inherits_asInteger : (all D).KeptBy (asInteger value) := .ask _

instance inherits_asReal : (all D).KeptBy (asReal value) := .ask _

instance inherits_writable : (all D).KeptBy (writable target) := .ask _

instance inherits_rejectCycle : (all D).KeptBy (rejectCycle target value) := .ask _

/-- An array can be given any elements. -/
instance inherits_store (x : Except Fault (Sequence Handle)) :
    (all D).KeptBy (do write target (.array (← of x))) := by
  have stored : ∀ s, (all D).KeptBy (write target (.array s)) :=
    fun s => inherits_write (law.array s)
  infer_instance

instance inherits_add : (all D).KeptBy (add target value) := by
  refine ⟨fun h held => Leads.lookBind ?_⟩
  cases read : h.data target with
  | array s => exact (inferInstance : (all D).KeptBy (_ >>= _)).leads h held
  | leaf l =>
    cases l with
    | executable e =>
      refine Leads.lookBind ?_
      cases given : (h.data value).asExecutable? with
      | none => exact .throw held
      | some other =>
        refine Leads.writableBind held fun _ => Leads.ofBind held fun merged run =>
          (inherits_write ?_).leads h held
        have first : D (.leaf (.executable e)) := read ▸ held target
        have second : D (.leaf (.executable other)) := Data.eq_of_asExecutable given ▸ held value
        exact law.merged run first second
    | _ => exact .throw held
  | _ => exact .throw held

instance inherits_insertKey : (all D).KeptBy (insertKey target key value) := by
  refine ⟨fun h held => Leads.askBind held fun k _ => Leads.askBind held
    fun _ _ => Leads.writableBind held fun _ => ?_⟩
  cases read : h.data target with
  | dictionary d =>
    have has : D (.dictionary d) := read ▸ held target
    exact (inherits_write (law.insert k value has)).leads h held
  | _ => exact .throw held

instance inherits_insertAt {position : Integer} :
    (all D).KeptBy (insertAt target value position) := by
  refine ⟨fun h held => Leads.askBind held fun _ _ => Leads.writableBind held fun _ => ?_⟩
  cases h.data target with
  | array s => exact (inherits_store _).leads h held
  | _ => exact .throw held

instance inherits_swap {a b : Integer} : (all D).KeptBy (swap target a b) := by
  refine ⟨fun h held => Leads.writableBind held fun _ => ?_⟩
  cases h.data target with
  | array s => exact (inherits_store _).leads h held
  | _ => exact .throw held

instance inherits_setElements {items : List Handle} :
    (all D).KeptBy (setElements target items) := by
  refine ⟨fun h held => ?_⟩
  obtain ⟨-, searched⟩ | ⟨-, refused⟩ := rejectCycles_cases h target items
  · refine Leads.continued (Leads.writableBind held fun _ => ?_) (bind_of_ok searched _) trivial
    cases h.data target with
    | array s => exact (inherits_store _).leads h held
    | _ => exact .throw held
  · exact .of_error (bind_of_error refused _) held trivial

instance inherits_removeKey : (all D).KeptBy (removeKey target key) := by
  refine ⟨fun h held => Leads.askBind held fun k _ => Leads.writableBind held fun _ => ?_⟩
  cases read : h.data target with
  | dictionary d =>
    have has : D (.dictionary d) := read ▸ held target
    have erased : (all D).KeptBy (write target (.dictionary (d.erase k))) :=
      inherits_write (law.erase k has)
    exact (erased.leads h held).bind fun _ _ held _ _ => .pure held trivial
  | _ => exact .throw held

instance inherits_elementAt {index : Integer} : (all D).KeptBy (elementAt target index) := .ask _

instance inherits_element : (all D).KeptBy (element target key) := by
  refine ⟨fun h held => Leads.lookBind ?_⟩
  cases read : h.data target with
  | array s => exact Leads.askBind held fun _ _ => inherits_elementAt.leads h held
  | dictionary d =>
    have has : D (.dictionary d) := read ▸ held target
    refine Leads.askBind held fun k _ => ?_
    split
    · exact .pure held trivial
    · refine Leads.writableBind held fun _ => ((inherits_newLeaf _).leads h held).bind
        fun v t held _ _ => ?_
      have inserted : (all D).KeptBy (write target (.dictionary (d.insert k v))) :=
        inherits_write (law.insert k v has)
      exact (inserted.leads t held).bind fun _ _ held _ _ => .pure held trivial
  | _ => exact .throw held

instance inherits_elements : (all D).KeptBy (elements target) := .ask _

instance inherits_bounds : (all D).KeptBy (bounds target) := .ask _

instance inherits_resolve {index : Integer} : (all D).KeptBy (resolve target index) := .ask _

instance inherits_length : (all D).KeptBy (length target) := .ask _

instance inherits_members : (all D).KeptBy (members target) := .ask _

instance inherits_getKey : (all D).KeptBy (getKey target key) := by
  refine ⟨fun h held => Leads.askBind held fun _ _ => Leads.lookBind ?_⟩
  cases h.data target with
  | dictionary d => exact .pure held trivial
  | _ => exact .throw held

instance inherits_keys : (all D).KeptBy (keys target) := by
  refine ⟨fun h held => Leads.lookBind ?_⟩
  cases h.data target with
  | dictionary d => exact (KeptBy.mapM d.keys fun k => newLeaf k.toLeaf).leads h held
  | _ => exact .throw held

instance inherits_member {name : String} : (all D).KeptBy (member target name) := by
  refine ⟨fun h held => Leads.lookBind ?_⟩
  cases h.data target with
  | record r => exact (KeptBy.of _).leads h held
  | array s =>
    refine Leads.ofBind held fun l run => (inherits_alloc ?_).leads h held
    unfold arrayProperty at run
    split_ifs at run <;> cases run <;> exact law.leaf _
  | _ => exact .throw held

/-! ## Conversion, declared values and types -/

/-- A conversion ends with a scalar that holds no callable. -/
theorem plain_of_convert {kind : Kind} {d : Data Handle} {l : Leaf} (run : d.convert kind = .ok l) :
    l.Plain := by
  unfold Data.convert at run
  split at run
  · obtain ⟨_, -, rfl⟩ := Except.ok_of_map run
    infer_instance
  · obtain ⟨_, -, rfl⟩ := Except.ok_of_map run
    infer_instance
  · obtain ⟨_, -, rfl⟩ := Except.ok_of_map run
    infer_instance
  · obtain ⟨_, -, rfl⟩ := Except.ok_of_map run
    infer_instance
  · cases run

theorem plain_of_convertItem {kind : Kind} {d : Data Handle} {l : Leaf}
    (run : convertItem kind d = .ok l) : l.Plain := by
  unfold convertItem at run
  split at run
  · cases run
  · exact plain_of_convert run

instance inherits_cast {kind : Kind} : (all D).KeptBy (cast kind value) := by
  refine ⟨fun h held => Leads.lookBind ?_⟩
  split
  next s _ =>
    have leaves : (all D).Leads (s.items.mapM fun i => ask fun h => convertItem kind (h.data i)) h
        fun ls _ => ∀ l ∈ ls, l.Plain :=
      Leads.mapM (R := fun (l : Leaf) _ => l.Plain) (fun _ _ _ plain _ => plain) held
        fun i _ _ held _ => Leads.ask held fun l run => plain_of_convertItem run
    refine leaves.bind fun ls t held _ plain => ?_
    have made : (all D).Leads (ls.mapM newLeaf) t fun _ _ => True :=
      (Leads.mapM (R := fun _ _ => True) (fun _ _ _ _ _ => trivial) held fun l mem u held _ =>
        have := plain l mem
        (inherits_newLeaf l).leads u held).weaken fun _ _ _ _ _ => trivial
    exact made.bind fun vs u held _ _ => (inherits_new (law.array _)).leads u held
  · refine Leads.ofBind held fun l run => ?_
    have plain := plain_of_convert run
    exact (inherits_newLeaf l).leads h held

mutual

/-- **Declared values**, by recursion on the type. -/
theorem inherits_declare {D : Data Handle → Prop} [law : Data.Hereditary D] :
    (t : TypeDesc) → (all D).KeptBy (declare t)
  | .null | .boolean | .integer | .rangedInteger _ | .real | .rangedReal _ | .string => by
    unfold declare
    exact inherits_newLeaf _
  | .dictionary => by
    unfold declare
    exact inherits_new (law.noEntries)
  | .array start finish element policy => by
    have slot : (all D).KeptBy (declare element) := inherits_declare element
    have made : ∀ slots, (all D).KeptBy (new (.array (.declared start slots element policy))) :=
      fun _ => inherits_new (law.array _)
    unfold declare
    infer_instance
  | .record name members => by
    have values : (all D).KeptBy (declareMembers members) := inherits_declareMembers members
    have made : ∀ ms, (all D).KeptBy (new (.record (.declared ⟨name, members⟩ ms))) :=
      fun ms => inherits_new (law.record _ (Record.nodup_names_ofMembers ms))
    unfold declare
    infer_instance

/-- Members are declared one after the other. -/
theorem inherits_declareMembers {D : Data Handle → Prop} [law : Data.Hereditary D] :
    (ms : List (String × TypeDesc)) → (all D).KeptBy (declareMembers ms)
  | [] => by
    unfold declareMembers
    infer_instance
  | (n, t) :: ms => by
    have first : (all D).KeptBy (declare t) := inherits_declare t
    have rest : (all D).KeptBy (declareMembers ms) := inherits_declareMembers ms
    unfold declareMembers
    infer_instance

end

attribute [instance] inherits_declare

instance inherits_declareFrom : (all D).KeptBy (declareFrom value) := by
  refine ⟨fun h held => Leads.lookBind ?_⟩
  split
  next t _ => exact (inherits_declare t).leads h held
  · exact .throw held

instance inherits_typeOf : (all D).KeptBy (typeOf value) := by
  refine ⟨fun h held => Leads.lookBind ?_⟩
  split
  · exact .pure held trivial
  · refine Leads.askBind held fun t _ => ?_
    cases t with
    | some t => exact (inherits_newLeaf _).leads h held
    | none => exact inherits_newNull.leads h held

/-! ## Assignment -/

/-- An executable takes over the overloads of another one; nothing else becomes an executable. -/
theorem inherits_of_convertInto {l m : Leaf} {d : Data Handle} (run : convertInto l d = .ok m)
    (given : D d) : D (.leaf m) := by
  cases l with
  | executable e =>
    simp only [convertInto] at run
    split at run
    next f read =>
      cases run
      exact Data.eq_of_asExecutable read ▸ given
    · cases run
  | null =>
    cases run
    exact law.leaf _
  | type t =>
    simp only [convertInto] at run
    split at run
    · cases run
      exact law.leaf _
    · cases run
  | boolean _ | string _ =>
    obtain ⟨_, -, rfl⟩ := Except.ok_of_map run
    exact law.leaf _
  | integer _ _ | real _ _ =>
    obtain ⟨_, -, rest⟩ := Except.ok_of_bind run
    obtain ⟨_, -, rest⟩ := Except.ok_of_bind rest
    cases rest
    exact law.leaf _

instance inherits_adopt : (all D).KeptBy (copyData value >>= write target) :=
  ⟨fun _ held => (yields_copyData held value).leads.bind fun _ t held _ new =>
    (inherits_write new).leads t held⟩

/-- **Assignment** of contents of any kind, at any number of levels. -/
theorem inherits_assigner {f : Handle → Handle → HeapM Unit} (assigner : Assigner f) :
    (all D).KeptBy (f target value) := by
  refine ⟨fun h held => assigner.leads (I := fun _ _ _ => True) ?_ ?_ ?_ held trivial⟩
  · exact fun held _ _ _ => inherits_adopt.leads _ held
  · exact fun held _ _ _ _ run =>
      (inherits_write (inherits_of_convertInto run (held _))).leads _ held
  · exact fun _ _ _ _ _ _ _ => trivial

instance inherits_assign : (all D).KeptBy (assign target value) := inherits_assigner .assign

instance inherits_step {up : Bool} : (all D).KeptBy (step up target value) := by
  have levels : ∀ n target, (all D).KeptBy (stepTo up value n target) := by
    intro n
    induction n with
    | zero => exact fun _ => .pure _
    | succ n ih =>
      intro target
      refine ⟨fun h held => Leads.lookBind ?_⟩
      cases h.data target with
      | leaf l =>
        cases l with
        | boolean _ | integer _ _ =>
          refine Leads.askBind held fun _ _ => Leads.ofBind held fun _ _ => ?_
          refine Leads.askBind held fun _ _ => Leads.ofBind held fun _ _ => ?_
          exact (KeptBy.bind (newLeaf _) (assign target)).leads h held
        | real _ _ | string _ =>
          refine Leads.askBind held fun _ _ => Leads.askBind held fun _ _ => ?_
          exact (KeptBy.bind (newLeaf _) (assign target)).leads h held
        | _ => exact .throw held
      | array s => exact (KeptBy.forM s.items (stepTo up value n)).leads h held
      | _ => exact .throw held
  unfold step
  infer_instance

/-! ## Versions -/

instance inherits_makeVersion {numbers : Integer × Integer × Integer} :
    (all D).KeptBy (Version.make numbers) := by
  have set : ∀ v name i, (all D).KeptBy (Version.setNumber v name i) := fun _ _ _ => .bind _ _
  unfold Version.make
  infer_instance

instance inherits_versionNumbers : (all D).KeptBy (Version.numbers value) := by
  refine ⟨fun h held => Leads.lookBind ?_⟩
  split
  · exact .throw held
  · exact (inferInstance : (all D).KeptBy (_ >>= _)).leads h held

end HeapM

end ScriptHost
