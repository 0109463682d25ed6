import ScriptHost.Heap.Container
import ScriptHost.Heap.Declare
import ScriptHost.Heap.Describe
import ScriptHost.Proofs.Heap.Copy
import ScriptHost.Proofs.Heap.Search

/-!
# Where an operation writes

`Heap.Confined S h h'` says that of the cells there are in `h`, only those in `S` differ in `h'`.
That an operation keeps its changes within `S` says nothing about the values it is given and asks
nothing of the heap, so it is a property of the operation alone, `HeapM.Writes S`, and found for it
by the operations that it is made of. Readers, and whatever only makes cells, write nothing: they
have the property for every `S`. A change to one container writes that container.

Assignments write at several places and are treated apart.
-/

set_option autoImplicit false

namespace ScriptHost

open Course

namespace Heap

/-- The cells outside `S` stand in the other heap as they are. -/
structure Confined (S : Handle → Prop) (h h' : Heap) : Prop where
  size_le : h.size ≤ h'.size
  cell : ∀ w, h.Made w → ¬ S w → h'.cell w = h.cell w

variable {S : Handle → Prop} {h h' h'' : Heap}

theorem Confined.refl (h : Heap) : Confined S h h := ⟨Nat.le_refl _, fun _ _ _ => rfl⟩

theorem Confined.trans (first : Confined S h h') (second : Confined S h' h'') :
    Confined S h h'' where
  size_le := Nat.le_trans first.size_le second.size_le
  cell w made outside :=
    (second.cell w (Nat.lt_of_lt_of_le made first.size_le) outside).trans
      (first.cell w made outside)

theorem Extends.confined (ext : h.Extends h') : Confined S h h' :=
  ⟨ext.size_le, fun w made _ => ext.cell w made⟩

/-- Heaps that differ in `S` only. -/
def confining (S : Handle → Prop) : Course Heap where
  holds _ := True
  goes := Confined S
  refl := Confined.refl
  trans := Confined.trans

end Heap

/-- An operation that changes no cell outside `S`, whether it fails or not. -/
class HeapM.Writes {α : Type} (S : Handle → Prop) (m : HeapM α) : Prop where
  leads : ∀ h, (Heap.confining S).Leads m h fun _ _ => True

namespace HeapM

open Heap

variable {S : Handle → Prop} {α β : Type} {target value key : Handle}

/-! ## Sequences of operations -/

instance writes_pure (a : α) : Writes S (pure a : HeapM α) := ⟨fun _ => .pure trivial trivial⟩

instance writes_throw (f : Fault) : Writes S (throw f : HeapM α) := ⟨fun _ => .throw trivial⟩

instance writes_bind (m : HeapM α) (f : α → HeapM β) [first : Writes S m]
    [next : ∀ a, Writes S (f a)] : Writes S (m >>= f) :=
  ⟨fun h => (first.leads h).bind fun a t _ _ _ => (next a).leads t⟩

instance writes_look (f : Heap → α) : Writes S (look f) := ⟨fun _ => Leads.look trivial trivial⟩

instance writes_ask (f : Heap → Except Fault α) : Writes S (ask f) :=
  ⟨fun _ => Leads.ask trivial fun _ _ => trivial⟩

instance writes_of (x : Except Fault α) : Writes S (of x) := writes_ask _

instance writes_forM (l : List α) (f : α → HeapM PUnit) [each : ∀ a, Writes S (f a)] :
    Writes S (l.forM f) :=
  ⟨fun _ => Leads.forM trivial fun a _ t _ _ => (each a).leads t⟩

instance writes_mapM (l : List α) (f : α → HeapM β) [each : ∀ a, Writes S (f a)] :
    Writes S (l.mapM f) :=
  ⟨fun _ => (Leads.mapM (R := fun _ _ => True) (fun _ _ _ _ _ => trivial) trivial fun a _ t _ _ =>
    (each a).leads t).weaken fun _ _ _ _ _ => trivial⟩

instance writes_mapParts (d : Data Handle) (f : Handle → HeapM Handle) [∀ p, Writes S (f p)] :
    Writes S (d.mapM f) := by
  cases d with
  | leaf l => exact writes_pure _
  | array s =>
    unfold Data.mapM Sequence.mapM
    infer_instance
  | dictionary d =>
    unfold Data.mapM Dictionary.mapM
    infer_instance
  | record r =>
    unfold Data.mapM Record.mapM
    infer_instance

/-! ## New cells -/

instance writes_alloc (c : Cell) : Writes S (alloc c) :=
  ⟨fun h => .of_ok rfl trivial (extends_push h c).confined trivial⟩

instance writes_new (d : Data Handle) : Writes S (new d) := writes_alloc _

instance writes_newLeaf (l : Leaf) : Writes S (newLeaf l) := writes_alloc _

instance writes_newNull : Writes S newNull := writes_alloc _

instance writes_newCallable (name : String) (params : List Param) (body : Body) :
    Writes S (newCallable name params body) :=
  ⟨fun _ => .of_ok rfl trivial ⟨Nat.le_refl _, fun _ _ _ => rfl⟩ trivial⟩

instance writes_newFunction (name : String) (params : List Param) (body : Body) :
    Writes S (newFunction name params body) := by
  unfold newFunction
  infer_instance

instance writes_dataOf : Writes S (dataOf value) := writes_look _

instance writes_kindOf : Writes S (kindOf value) := writes_look _

instance writes_copyTo (keepLocks : Bool) (n : Nat) (v : Handle) :
    Writes S (copyTo keepLocks n v) := by
  induction n generalizing v with
  | zero => exact writes_newLeaf _
  | succ n ih =>
    unfold copyTo
    infer_instance

instance writes_copy : Writes S (copy value) := by
  unfold copy
  infer_instance

instance writes_copyData : Writes S (copyData value) := by
  unfold copyData
  infer_instance

instance writes_duplicate (kind : CloneKind) : Writes S (duplicate kind value) := by
  unfold duplicate
  cases kind <;> infer_instance

instance writes_cloneWith (kind : CloneKind) : Writes S (cloneWith kind value) := by
  unfold cloneWith
  cases kind <;> infer_instance

mutual

theorem writes_declare : (t : TypeDesc) → Writes S (declare t)
  | .null | .boolean | .integer | .rangedInteger _ | .real | .rangedReal _ | .string
  | .dictionary => by
    unfold declare
    infer_instance
  | .array start finish element policy => by
    have slot := writes_declare element
    unfold declare
    infer_instance
  | .record name members => by
    have values := writes_declareMembers members
    unfold declare
    infer_instance

theorem writes_declareMembers : (ms : List (String × TypeDesc)) → Writes S (declareMembers ms)
  | [] => by
    unfold declareMembers
    infer_instance
  | (n, t) :: ms => by
    have first := writes_declare t
    have rest := writes_declareMembers ms
    unfold declareMembers
    infer_instance

end

attribute [instance] writes_declare

/-! ## Readers -/

instance writes_asInteger : Writes S (asInteger value) := writes_ask _

instance writes_declareFrom : Writes S (declareFrom value) := by
  refine ⟨fun h => Leads.lookBind ?_⟩
  split
  next t _ => exact (writes_declare t).leads h
  · exact .throw trivial

instance writes_typeOf : Writes S (typeOf value) := by
  refine ⟨fun h => Leads.lookBind ?_⟩
  split
  · exact .pure trivial trivial
  · refine Leads.askBind trivial fun t _ => ?_
    cases t with
    | some t => exact (writes_newLeaf _).leads h
    | none => exact writes_newNull.leads h

instance writes_length : Writes S (length target) := writes_ask _

instance writes_resolve {index : Integer} : Writes S (resolve target index) := writes_ask _

instance writes_elementAt {index : Integer} : Writes S (elementAt target index) := writes_ask _

instance writes_elements : Writes S (elements target) := writes_ask _

instance writes_keys : Writes S (keys target) := by
  refine ⟨fun h => Leads.lookBind ?_⟩
  cases h.data target with
  | dictionary d => exact (writes_mapM _ _).leads h
  | _ => exact .throw trivial

instance writes_member {name : String} : Writes S (member target name) := by
  refine ⟨fun h => Leads.lookBind ?_⟩
  cases h.data target with
  | record r => exact Leads.of trivial fun _ _ => trivial
  | array s => exact Leads.ofBind trivial fun _ _ => (writes_alloc _).leads h
  | _ => exact .throw trivial

instance writes_getKey : Writes S (getKey target key) := by
  refine ⟨fun h => Leads.askBind trivial fun _ _ => Leads.lookBind ?_⟩
  cases h.data target with
  | dictionary d => exact .pure trivial trivial
  | _ => exact .throw trivial

instance writes_cast {kind : Kind} : Writes S (cast kind value) := by
  refine ⟨fun h => Leads.lookBind ?_⟩
  split
  · exact (inferInstance : Writes S (_ >>= _)).leads h
  · exact Leads.ofBind trivial fun _ _ => (writes_newLeaf _).leads h

/-! ## Containers -/

/-- Replacing the contents of a cell writes that cell. -/
theorem writes_write {d : Data Handle} (inside : S target) : Writes S (write target d) := by
  refine ⟨fun h => Leads.write trivial
    fun _ => ⟨trivial, ⟨Nat.le_of_eq (size_setCell h target _).symm, ?_⟩, trivial⟩⟩
  exact fun w _ outside => cell_setCell_ne h _ fun same => outside (same ▸ inside)

instance writes_self {d : Data Handle} : Writes (· = target) (write target d) := writes_write rfl

instance writes_writable : Writes S (writable target) := writes_ask _

instance writes_rejectCycle : Writes S (rejectCycle target value) := writes_ask _

instance writes_add : Writes (· = target) (add target value) := by
  refine ⟨fun h => Leads.lookBind ?_⟩
  cases h.data target with
  | array s => exact (inferInstance : Writes (· = target) (_ >>= _)).leads h
  | leaf l =>
    cases l with
    | executable e =>
      refine Leads.lookBind ?_
      split
      · exact .throw trivial
      · exact (inferInstance : Writes (· = target) (_ >>= _)).leads h
    | _ => exact .throw trivial
  | _ => exact .throw trivial

/-- What is done with a container once its lock has been looked at, by what it is. -/
theorem leads_writableBind {k : Data Handle → HeapM α} (next : ∀ d, Writes S (k d)) (h : Heap) :
    (confining S).Leads (writable target >>= k) h fun _ _ => True :=
  (writes_bind _ _).leads h

instance writes_insertKey : Writes (· = target) (insertKey target key value) := by
  refine ⟨fun h => Leads.askBind trivial fun k _ => Leads.askBind trivial
    fun _ _ => leads_writableBind (fun d => ?_) h⟩
  cases d <;> infer_instance

instance writes_insertAt {position : Integer} :
    Writes (· = target) (insertAt target value position) := by
  refine ⟨fun h => Leads.askBind trivial fun _ _ => leads_writableBind (fun d => ?_) h⟩
  cases d <;> infer_instance

instance writes_swap {a b : Integer} : Writes (· = target) (swap target a b) := by
  refine ⟨fun h => leads_writableBind (fun d => ?_) h⟩
  cases d <;> infer_instance

instance writes_setElements {items : List Handle} :
    Writes (· = target) (setElements target items) := by
  refine ⟨fun h => ((writes_forM items _).leads h).bind fun _ t _ _ _ =>
    leads_writableBind (fun d => ?_) t⟩
  cases d <;> infer_instance

instance writes_removeKey : Writes (· = target) (removeKey target key) := by
  refine ⟨fun h => Leads.askBind trivial fun k _ => leads_writableBind (fun d => ?_) h⟩
  cases d <;> infer_instance

/-- Looking up a key that is absent makes an entry for it. -/
instance writes_element : Writes (· = target) (element target key) := by
  refine ⟨fun h => Leads.lookBind ?_⟩
  cases h.data target with
  | array s => exact Leads.askBind trivial fun _ _ => Leads.ask trivial fun _ _ => trivial
  | dictionary d =>
    refine Leads.askBind trivial fun k _ => ?_
    split
    · exact .pure trivial trivial
    · exact (inferInstance : Writes (· = target) (_ >>= _)).leads h
  | _ => exact .throw trivial

end HeapM

/-! ## Locks -/

namespace Heap

/-- **Locking** changes locks alone, and leaves those locked that were, with all that the value
reaches. -/
theorem isLocked_lock {h : Heap} (formed : h.WellFormed) (v : Handle) :
    ∃ h', HeapM.lock v h = .ok () h' ∧ h'.size = h.size ∧ (∀ w, h'.data w = h.data w) ∧
      ∀ w, h'.isLocked w = true ↔ h.isLocked w = true ∨ h.Reaches v w := by
  obtain ⟨h', run, locks⟩ := run_lock h v
  refine ⟨h', run, locks.size, locks.data, fun w => ⟨fun after => ?_, ?_⟩⟩
  · cases before : h.isLocked w with
    | true => exact .inl rfl
    | false =>
      obtain ⟨r, mem, reach⟩ := locks.reached w before after
      rw [List.mem_singleton] at mem
      exact .inr (mem ▸ reach)
  · rintro (before | reach)
    · exact locks.keeps w before
    · have passedOn : ∀ u, h'.isLocked u = true → ∀ p ∈ h.parts u, h'.isLocked p = true := by
        intro u after p part
        cases before : h.isLocked u with
        | true => exact locks.keeps p (formed.sealed u before p part)
        | false => exact locks.sealed u before after p part
      exact reach.closed passedOn (locks.roots v (by simp))

end Heap

end ScriptHost
