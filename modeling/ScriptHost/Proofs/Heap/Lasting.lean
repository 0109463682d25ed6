import ScriptHost.Proofs.Heap.Confined
import ScriptHost.Proofs.Heap.Container

/-!
# Executables and arrays last

An executable stays an executable whatever is done to it, and its overloads stay with it: adding to
it only merges more of them in. The one exception is an assignment, which puts the overloads of its
source in place of all others. An array stays an array, and what becomes of its contents is the work
of four operations, one after the other (`Sequence.Step`).

`Heap.lasting strict` is the course of heaps whose executables last, with all their arities if it is
`strict`, and whose arrays are changed in these ways only. That an operation keeps to the strict
course says nothing about the values it is given and asks nothing of the heap, so it is a property
of the operation alone, `HeapM.Lasting`, and found for it by the operations that it is made of;
those that write nothing have it (`HeapM.lasting_of_writes`). An assignment keeps to the course that
is not strict (`Heap.lasts_assign`), and to the strict one where its source is no executable
(`HeapM.lasting_assignLeaf`).
-/

set_option autoImplicit false

namespace ScriptHost

open Course

/-- An executable stays one and, where all is to be kept, answers every arity that it did. -/
def Data.Lasts {ρ : Type} (strict : Prop) (d e : Data ρ) : Prop :=
  d.kind = .executable → e.kind = .executable ∧ (strict → d.arities ⊆ e.arities)

namespace Data

variable {ρ : Type} {strict : Prop} {d e f : Data ρ}

theorem Lasts.refl (d : Data ρ) : d.Lasts strict d :=
  fun kind => ⟨kind, fun _ => List.Subset.refl _⟩

theorem Lasts.trans (first : d.Lasts strict e) (second : e.Lasts strict f) : d.Lasts strict f := by
  intro kind
  obtain ⟨kind, kept⟩ := first kind
  obtain ⟨kind, keeps⟩ := second kind
  exact ⟨kind, fun all => List.Subset.trans (kept all) (keeps all)⟩

theorem Lasts.weaken {loose : Prop} (lasts : d.Lasts strict e) (weaker : loose → strict) :
    d.Lasts loose e :=
  fun kind => ⟨(lasts kind).1, fun all => (lasts kind).2 (weaker all)⟩

/-- Nothing is asked of contents that are no executable. -/
theorem lasts_of_kind (other : d.kind ≠ .executable) : d.Lasts strict e :=
  fun kind => absurd kind other

end Data

/-- What one operation makes of the contents of an array. -/
inductive Sequence.Step {ρ : Type} (s : Sequence ρ) : Sequence ρ → Prop where
  | push {t : Sequence ρ} (v : ρ) (run : s.push v = .ok t) : Step s t
  | insert {t : Sequence ρ} (index : Integer) (v : ρ) (run : s.insert index v = .ok t) : Step s t
  | swap {t : Sequence ρ} (a b : Integer) (run : s.swap a b = .ok t) : Step s t
  | replace {t : Sequence ρ} (items : List ρ) (run : s.replace items = .ok t) : Step s t

/-- What becomes of the contents of a cell: an executable lasts, and the contents of an array are
changed by its operations. -/
structure Data.Stays {ρ : Type} (strict : Prop) (d e : Data ρ) : Prop where
  lasts : d.Lasts strict e
  array : ∀ s, d = .array s → ∃ t, e = .array t ∧ Relation.ReflTransGen Sequence.Step s t

namespace Data

variable {ρ : Type} {strict : Prop} {d e f : Data ρ}

theorem Stays.refl (d : Data ρ) : d.Stays strict d := ⟨.refl d, fun s same => ⟨s, same, .refl⟩⟩

theorem Stays.trans (first : d.Stays strict e) (second : e.Stays strict f) : d.Stays strict f := by
  refine ⟨first.lasts.trans second.lasts, fun s held => ?_⟩
  obtain ⟨t, held, steps⟩ := first.array s held
  obtain ⟨u, held, further⟩ := second.array t held
  exact ⟨u, held, steps.trans further⟩

theorem Stays.weaken {loose : Prop} (stays : d.Stays strict e) (weaker : loose → strict) :
    d.Stays loose e :=
  ⟨stays.lasts.weaken weaker, stays.array⟩

/-- Contents that are no array stay if they last. -/
theorem stays_of_lasts (other : d.kind ≠ .array) (lasts : d.Lasts strict e) : d.Stays strict e :=
  ⟨lasts, fun s same => absurd (by rw [same]; rfl) other⟩

/-- Contents that are neither an executable nor an array can become anything. -/
theorem stays_of_kind (plain : d.kind ≠ .executable) (other : d.kind ≠ .array) : d.Stays strict e :=
  stays_of_lasts other (lasts_of_kind plain)

/-- An array stays through any step that an array can take. -/
theorem stays_of_step {s t : Sequence ρ} (step : s.Step t) :
    (Data.array s).Stays strict (.array t) := by
  refine ⟨lasts_of_kind nofun, fun u same => ⟨t, rfl, ?_⟩⟩
  cases same
  exact .single step

end Data

/-- A merge keeps the arities of the executable that is added to. -/
theorem Executable.arities_of_merge {a b c : Executable} (run : a.merge b = .ok c) :
    a.arities ⊆ c.arities := by
  have placed : ∀ (c : Callable) (cs : List Callable), cs ⊆ place c cs := by
    intro c cs
    induction cs with
    | nil => simp
    | cons d ds ih =>
      unfold place
      split
      · exact List.subset_cons_self _ _
      · exact List.cons_subset_cons d ih
  have all : ∀ (others cs : List Callable), cs ⊆ others.foldl (fun cs c => place c cs) cs := by
    intro others
    induction others with
    | nil => simp
    | cons d ds ih => exact fun cs => List.Subset.trans (placed d cs) (ih _)
  unfold merge at run
  split at run
  · cases run
  · cases run
    exact List.map_subset _ (all b.overloads a.overloads)

/-- Heaps whose executables and arrays last. -/
def Heap.lasting (strict : Prop) : Course Heap where
  holds _ := True
  goes h h' := ∀ v, (h.data v).Stays strict (h'.data v)
  refl _ _ := .refl _
  trans first second v := (first v).trans (second v)

/-- An operation after which every executable is one with all its arities, and every array one that
has come of it. -/
class HeapM.Lasting {α : Type} (m : HeapM α) : Prop where
  leads : ∀ h, (Heap.lasting True).Leads m h fun _ _ => True

namespace Heap

variable {strict : Prop} {h : Heap} {v target source : Handle}

/-- What lasts with all arities lasts. -/
theorem lasts {α : Type} (m : HeapM α) [lasting : m.Lasting] (h : Heap) :
    (Heap.lasting strict).Leads m h fun _ _ => True :=
  ((lasting.leads h).narrow fun _ _ gone =>
    ⟨trivial, fun v => (gone v).weaken fun _ => trivial⟩).weaken fun _ _ _ _ _ => trivial

/-- Where no cell changes, all lasts; and a cell that there has not been held neither an executable
nor an array. -/
theorem Confined.lasting {h' : Heap} (kept : Confined (fun _ => False) h h') :
    (Heap.lasting strict).goes h h' := by
  intro v
  by_cases made : h.Made v
  · rw [data_congr (kept.cell v made id)]
    exact .refl _
  · have none : h.data v = .leaf .null := by simp only [data, cell_of_not_made made, absent]
    rw [none]
    exact Data.stays_of_kind (by decide) (by decide)

/-- A new cell leaves all contents as they are. -/
theorem lasting_push (c : Cell) : (lasting strict).goes h (h.push c) :=
  (extends_push h c).confined.lasting

/-- Replacing the contents of a cell. -/
theorem lasts_write {d : Data Handle} (stays : (h.data v).Stays strict d) :
    (lasting strict).Leads (HeapM.write v d) h fun _ _ => True := by
  refine Leads.write trivial fun unlocked => ⟨trivial, fun w => ?_, trivial⟩
  by_cases here : w = v
  · subst here
    have made : h.Made w := made_of_unlocked unlocked
    simpa only [data, cell_setCell_self h w _ made] using stays
  · rw [data_congr (cell_setCell_ne h _ here)]
    exact .refl _

/-- Replacing contents that are neither an executable nor an array. -/
theorem lasts_store {d : Data Handle} (plain : (h.data v).kind ≠ .executable)
    (other : (h.data v).kind ≠ .array) :
    (lasting strict).Leads (HeapM.write v d) h fun _ _ => True :=
  lasts_write (Data.stays_of_kind plain other)

end Heap

namespace HeapM

open Heap

variable {α β : Type} {target value key : Handle}

/-! ## Sequences of operations -/

/-- Readers, and whatever only makes cells. -/
instance (priority := low) lasting_of_writes (m : HeapM α) [quiet : Writes (fun _ => False) m] :
    m.Lasting :=
  ⟨fun h => ((quiet.leads h).narrow fun _ _ gone => ⟨trivial, gone.lasting⟩).weaken
    fun _ _ _ _ _ => trivial⟩

instance lasting_pure (a : α) : (pure a : HeapM α).Lasting := lasting_of_writes _

instance lasting_bind (m : HeapM α) (f : α → HeapM β) [first : m.Lasting]
    [next : ∀ a, (f a).Lasting] : (m >>= f).Lasting :=
  ⟨fun h => (first.leads h).bind fun a t _ _ _ => (next a).leads t⟩

instance lasting_ite (c : Prop) [Decidable c] (m n : HeapM α) [yes : m.Lasting] [no : n.Lasting] :
    (if c then m else n).Lasting := by
  split
  · exact yes
  · exact no

instance lasting_forM (l : List α) (f : α → HeapM PUnit) [each : ∀ a, (f a).Lasting] :
    (l.forM f).Lasting :=
  ⟨fun _ => Leads.forM trivial fun a _ t _ _ => (each a).leads t⟩

/-! ## Locks -/

instance lasting_lockCell (v : Handle) : (lockCell v).Lasting := by
  refine ⟨fun h => .of_ok rfl trivial (fun w => ?_) trivial⟩
  have same : (h.setCell v { h.cell v with locked := true }).data w = h.data w := by
    by_cases here : w = v
    · subst here
      by_cases made : h.Made w
      · simp only [data, cell_setCell_self h w _ made]
      · have no : ¬ (h.setCell w { h.cell w with locked := true }).Made w := by simpa using made
        rw [data, cell_of_not_made no, data, cell_of_not_made made]
    · exact data_congr (cell_setCell_ne h _ here)
  rw [same]
  exact .refl _

instance lasting_lockTo (n : Nat) (v : Handle) : (lockTo n v).Lasting := by
  induction n generalizing v with
  | zero => exact lasting_pure _
  | succ n ih =>
    unfold lockTo
    infer_instance

instance lasting_lock (v : Handle) : (lock v).Lasting := by
  unfold lock
  infer_instance

/-! ## Containers -/

/-- New contents for an array, where there are any. -/
theorem lasts_replace {h : Heap} {s : Sequence Handle} {x : Except Fault (Sequence Handle)}
    (held : h.data target = .array s) (step : ∀ t, x = .ok t → s.Step t) :
    (lasting True).Leads (do write target (.array (← of x))) h fun _ _ => True := by
  refine Leads.ofBind trivial fun t run => lasts_write ?_
  rw [held]
  exact Data.stays_of_step (step t run)

instance lasting_add : (add target value).Lasting := by
  refine ⟨fun h => Leads.lookBind ?_⟩
  cases held : h.data target with
  | array s =>
    refine Leads.askBind trivial fun _ _ => Leads.writableBind trivial fun _ =>
      Leads.lookBind (Leads.ofBind trivial fun _ _ => ?_)
    exact lasts_replace held fun _ run => .push value run
  | leaf l =>
    cases l with
    | executable e =>
      refine Leads.lookBind ?_
      split
      · exact .throw trivial
      · refine Leads.writableBind trivial fun _ => Leads.ofBind trivial fun merged run =>
          lasts_write ?_
        rw [held]
        exact Data.stays_of_lasts nofun fun _ => ⟨rfl, fun _ => Executable.arities_of_merge run⟩
    | _ => exact .throw trivial
  | _ => exact .throw trivial

instance lasting_insertKey : (insertKey target key value).Lasting := by
  refine ⟨fun h => Leads.askBind trivial fun _ _ => Leads.askBind trivial
    fun _ _ => Leads.writableBind trivial fun _ => ?_⟩
  cases held : h.data target with
  | dictionary d => exact lasts_store (by simp [held, Data.kind]) (by simp [held, Data.kind])
  | _ => exact .throw trivial

instance lasting_insertAt {position : Integer} : (insertAt target value position).Lasting := by
  refine ⟨fun h => Leads.askBind trivial fun _ _ => Leads.writableBind trivial fun _ => ?_⟩
  cases held : h.data target with
  | array s => exact lasts_replace held fun _ run => .insert position value run
  | _ => exact .throw trivial

instance lasting_swap {a b : Integer} : (swap target a b).Lasting := by
  refine ⟨fun h => Leads.writableBind trivial fun _ => ?_⟩
  cases held : h.data target with
  | array s => exact lasts_replace held fun _ run => .swap a b run
  | _ => exact .throw trivial

instance lasting_setElements {items : List Handle} : (setElements target items).Lasting := by
  refine ⟨fun h => ?_⟩
  obtain ⟨-, searched⟩ | ⟨-, refused⟩ := rejectCycles_cases h target items
  · refine Leads.continued (Leads.writableBind trivial fun _ => ?_) (bind_of_ok searched _)
      ((lasting True).refl h)
    cases held : h.data target with
    | array s => exact lasts_replace held fun _ run => .replace items run
    | _ => exact .throw trivial
  · exact .of_error (bind_of_error refused _) trivial ((lasting True).refl h)

instance lasting_removeKey : (removeKey target key).Lasting := by
  refine ⟨fun h => Leads.askBind trivial fun _ _ => Leads.writableBind trivial fun _ => ?_⟩
  cases held : h.data target with
  | dictionary d =>
    exact (lasts_store (by simp [held, Data.kind]) (by simp [held, Data.kind])).bind
      fun _ _ _ _ _ => .pure trivial trivial
  | _ => exact .throw trivial

instance lasting_element : (element target key).Lasting := by
  refine ⟨fun h => Leads.lookBind ?_⟩
  cases held : h.data target with
  | array s => exact Leads.askBind trivial fun _ _ => Leads.ask trivial fun _ _ => trivial
  | dictionary d =>
    refine Leads.askBind trivial fun k _ => ?_
    split
    · exact .pure trivial trivial
    · have kind : ((h.push ⟨.leaf .null, false⟩).data target).kind = .dictionary := by
        have made : h.Made target := made_of_kind (by simp [Heap.kind, held, Data.kind])
        simp [data_congr (cell_push_of_made made), held, Data.kind]
      have made : (lasting True).Leads (newLeaf .null) h fun _ t =>
          t = h.push ⟨.leaf .null, false⟩ :=
        .of_ok rfl trivial (lasting_push _) rfl
      refine Leads.writableBind trivial fun _ => made.bind ?_
      rintro v _ _ _ rfl
      exact (lasts_store (by simp [kind]) (by simp [kind])).bind fun _ _ _ _ _ =>
        .pure trivial trivial
  | _ => exact .throw trivial

/-! ## Assignment -/

end HeapM

namespace Heap

variable {strict : Prop} {h : Heap} {target source : Handle}

/-- A conversion leaves an executable one, and it does not convert anything else into one. -/
theorem lasts_convertInto {l m : Leaf} {d : Data Handle} (convert : HeapM.convertInto l d = .ok m)
    (plain : strict → d.kind ≠ .executable) :
    (Data.leaf l : Data Handle).Lasts strict (.leaf m) := by
  intro kind
  cases l with
  | executable e =>
    simp only [HeapM.convertInto] at convert
    split at convert
    next f given =>
      cases convert
      refine ⟨rfl, fun on => absurd ?_ (plain on)⟩
      unfold Data.asExecutable? at given
      split at given
      · rfl
      · cases given
    · cases convert
  | _ => cases kind

/-- A clone of an executable has its arities. -/
theorem lasts_clone (v : Handle) (h : Heap) :
    (lasting strict).Yields (HeapM.cloneWith .deep v) h fun c h' =>
      (h.data v).Lasts strict (h'.data c) := by
  obtain ⟨c, h', run, -⟩ := extends_copyTo true h.levels v h
  refine ⟨c, h', run, trivial, ((lasts (HeapM.copyTo true h.levels v) h).ok run).2.1,
    fun kind => ?_⟩
  cases held : h.data v with
  | leaf l =>
    have whole : HeapM.copyTo true h.levels v h =
        .ok ⟨h.size⟩ (h.push ⟨.leaf l, true && h.isLocked v⟩) := by
      change HeapM.copyTo true (h.size + 1) v h = _
      simp only [HeapM.copyTo, HeapM.dataOf, HeapM.look, HeapM.alloc, Bind.bind, EStateM.bind, held,
        Data.mapM, Pure.pure, EStateM.pure]
    rw [whole] at run
    cases run
    have made : (h.push ⟨.leaf l, true && h.isLocked v⟩).data ⟨h.size⟩ = .leaf l := by
      rw [data, cell_push_new]
    rw [made]
    rw [held] at kind
    exact Data.Lasts.refl _ kind
  | _ =>
    rw [held] at kind
    cases kind

/-- A cell that is neither an executable nor an array takes over copies. -/
theorem lasts_adopt (plain : (h.data target).kind ≠ .executable)
    (other : (h.data target).kind ≠ .array) (unlocked : h.isLocked target = false) :
    (lasting strict).Leads (HeapM.copyData source >>= HeapM.write target) h fun _ _ => True := by
  obtain ⟨d, t, copied, -, ext, -⟩ := extends_copyData source h
  have still : t.data target = h.data target :=
    data_congr (ext.cell target (made_of_unlocked unlocked))
  have whole : (HeapM.copyData source >>= HeapM.write target) h = HeapM.write target d t :=
    HeapM.bind_of_ok copied _
  exact (lasts_store (by rwa [still]) (by rwa [still])).continued whole
    ((lasts (HeapM.copyData source) h).ok copied).2.1

/-- **Assignment** leaves executables what they are, with all their arities where the source is a
leaf of another kind: then nothing is assigned to an executable. -/
theorem lasts_assignPlain (plain : strict → ∃ l, h.data source = .leaf l ∧ l.kind ≠ .executable) :
    (lasting strict).Leads (HeapM.assign target source) h fun _ _ => True := by
  refine HeapM.Assigner.assign.leads (I := fun _ v h => strict → ∃ l, h.data v = .leaf l ∧
    l.kind ≠ .executable) ?_ ?_ ?_ trivial plain
  · intro t v h _ _ unlocked adopts
    cases adopts with
    | null held =>
      exact lasts_adopt (by simp [held, Data.kind, Leaf.kind])
        (by simp [held, Data.kind, Leaf.kind]) unlocked
    | dictionary held _ =>
      exact lasts_adopt (by simp [held, Data.kind]) (by simp [held, Data.kind]) unlocked
  · intro t v h l m _ plain _ held _ run
    have other : strict → (h.data v).kind ≠ .executable := by
      intro on
      obtain ⟨l, read, other⟩ := plain on
      rwa [read]
    refine lasts_write ?_
    rw [held]
    exact ⟨lasts_convertInto run other, nofun⟩
  · -- a leaf has no parts to pass on to
    intro t v p q h u _ plain _ _ right _ _ on
    obtain ⟨l, read, -⟩ := plain on
    rw [parts, read] at right
    cases right

/-- An assignment leaves executables executable. -/
theorem lasts_assign (target source : Handle) (h : Heap) :
    (lasting False).Leads (HeapM.assign target source) h fun _ _ => True :=
  lasts_assignPlain False.elim

end Heap

namespace HeapM

open Heap

/-- A new leaf that is no executable, assigned. -/
theorem lasting_assignLeaf {target : Handle} {l : Leaf} (other : l.kind ≠ .executable) :
    (newLeaf l >>= assign target).Lasting := by
  refine ⟨fun h => ?_⟩
  have made : (lasting True).Leads (newLeaf l) h fun v t => t.data v = .leaf l :=
    .of_ok rfl trivial (lasting_push _) (by simp only [data, cell_push_new])
  exact made.bind fun v t _ _ read => lasts_assignPlain fun _ => ⟨l, read, other⟩

instance lasting_step {up : Bool} {target amount : Handle} : (step up target amount).Lasting := by
  have levels : ∀ (n : Nat) (target : Handle), (stepTo up amount n target).Lasting := by
    intro n
    induction n with
    | zero => exact fun _ => lasting_pure _
    | succ n ih =>
      refine fun target => ⟨fun h => ?_⟩
      unfold stepTo
      refine Leads.lookBind ?_
      cases h.data target with
      | leaf l =>
        cases l with
        | boolean _ | integer _ _ =>
          refine Leads.askBind trivial fun _ _ => Leads.ofBind trivial fun _ _ => ?_
          refine Leads.askBind trivial fun _ _ => Leads.ofBind trivial fun _ _ => ?_
          exact (lasting_assignLeaf (by simp [Leaf.kind])).leads h
        | real _ _ | string _ =>
          refine Leads.askBind trivial fun _ _ => Leads.askBind trivial fun _ _ => ?_
          exact (lasting_assignLeaf (by simp [Leaf.kind])).leads h
        | _ => exact .throw trivial
      | array s => exact Leads.forM trivial fun item _ t _ _ => (ih item).leads t
      | _ => exact .throw trivial
  exact ⟨fun h => Leads.lookBind ((levels _ target).leads h)⟩

/-- A new leaf that is no executable, assigned to a member. -/
theorem lasting_setMember {target : Handle} {name : String} {l : Leaf}
    (other : l.kind ≠ .executable) : (do assign (← member target name) (← newLeaf l)).Lasting := by
  have each : ∀ m, (newLeaf l >>= assign m).Lasting := fun _ => lasting_assignLeaf other
  infer_instance

instance lasting_makeVersion {numbers : Integer × Integer × Integer} :
    (Version.make numbers).Lasting := by
  have set : ∀ v name i, (Version.setNumber v name i).Lasting :=
    fun _ _ _ => lasting_setMember (by simp [Leaf.kind])
  unfold Version.make
  infer_instance

instance lasting_versionNumbers {v : Handle} : (Version.numbers v).Lasting := by
  refine ⟨fun h => Leads.lookBind ?_⟩
  split
  · exact .throw trivial
  · exact (inferInstance : Lasting (_ >>= _)).leads h

end HeapM

end ScriptHost
