import ScriptHost.Heap.Declare
import ScriptHost.Heap.Describe
import ScriptHost.Library.Version
import ScriptHost.Proofs.Heap.Assign

/-!
# Operations on containers, and the other operations on values

Every operation is sound: it changes only what it is given and what that reaches, by changes that
keep heaps well formed, and what it yields is among these or new. An operation that makes a
container hold a value has searched the value for the container first, and the search is exact, so
no container comes to hold itself.

Homogeneous heaps stay so, with two exceptions. An element that is added is checked against the
element type of its array, but elements that are inserted at a place, or take the place of all
others, are not: `leads_insertAt` and `leads_setElements` ask for values that are admitted.
-/

set_option autoImplicit false

namespace ScriptHost

/-! ## What containers come to hold -/

namespace Sequence

variable {s t : Sequence Handle} {v : Handle}

/-- An array that grows keeps its schema, and holds nothing but what it held and the new element. -/
theorem push_keeps (run : s.push v = .ok t) :
    (Data.array s).Keeps (.array t) ∧ ∀ p ∈ t.items, p ∈ s.items ∨ p = v := by
  unfold push at run
  split at run
  · cases run
    exact ⟨⟨_, rfl, rfl, rfl, rfl⟩, fun p mem => List.mem_or_eq_of_mem_set mem⟩
  · split at run
    · cases run
      exact ⟨⟨_, rfl, rfl, rfl, rfl⟩, fun p mem => by simpa using mem⟩
    · cases run

/-- So does one that is inserted into. -/
theorem insert_keeps {index : Integer} (run : s.insert index v = .ok t) :
    (Data.array s).Keeps (.array t) ∧ ∀ p ∈ t.items, p ∈ s.items ∨ p = v := by
  unfold insert at run
  split at run
  · cases run
  · split at run
    · cases run
      exact ⟨⟨_, rfl, rfl, rfl, rfl⟩, fun p mem => (List.eq_or_mem_of_mem_insertIdx mem).symm⟩
    · cases run

theorem mem_of_insert {index : Integer} (run : s.insert index v = .ok t) : v ∈ t.items := by
  unfold insert at run
  split at run
  · cases run
  next inside =>
    split at run
    · cases run
      exact (List.mem_insertIdx (by simp only [length] at inside; omega)).mpr (.inl rfl)
    · cases run

/-- A swap moves elements and adds none. -/
theorem swap_keeps {a b : Integer} (run : s.swap a b = .ok t) :
    (Data.array s).Keeps (.array t) ∧ ∀ p ∈ t.items, p ∈ s.items := by
  obtain ⟨i, -, rest⟩ := Except.ok_of_bind run
  obtain ⟨j, -, rest⟩ := Except.ok_of_bind rest
  cases rest
  refine ⟨⟨_, rfl, rfl, rfl, rfl⟩, fun p mem => ?_⟩
  obtain mem | rfl := List.mem_or_eq_of_mem_set mem
  · obtain mem | rfl := List.mem_or_eq_of_mem_set mem
    · exact mem
    · exact List.get_mem ..
  · exact List.get_mem ..

/-- New elements leave the start, the element type and the policy as they are. -/
theorem replace_keeps {items : List Handle} (run : s.replace items = .ok t) :
    (Data.array s).Keeps (.array t) ∧ t.items = items := by
  unfold replace at run
  split at run
  · cases run
    exact ⟨⟨_, rfl, rfl, rfl, rfl⟩, rfl⟩
  · cases run

/-- What is found in an array is one of its elements. -/
theorem mem_of_get {index : Integer} (run : s.get index = .ok v) : v ∈ s.items := by
  obtain ⟨i, -, rfl⟩ := Except.ok_of_map run
  exact List.get_mem ..

end Sequence

namespace Dictionary

variable {d : Dictionary Handle} {k : Key} {v p : Handle}

/-- A dictionary holds nothing but what it held and what was put into it. -/
theorem mem_insert (mem : p ∈ (d.insert k v).values) : p ∈ d.values ∨ p = v := by
  have put : ∀ (es : List (Key × Handle)), ∀ e ∈ Dictionary.put k v es, e ∈ es ∨ e.2 = v := by
    intro es
    induction es with
    | nil => simp [Dictionary.put]
    | cons f es ih =>
      intro e mem
      simp only [Dictionary.put] at mem
      split at mem
      · obtain rfl | mem := List.mem_cons.mp mem
        · exact .inr rfl
        · exact .inl (by simp [mem])
      · obtain rfl | mem := List.mem_cons.mp mem
        · exact .inl (by simp)
        · exact (ih e mem).imp_left fun inside => by simp [inside]
  obtain ⟨e, inside, rfl⟩ := List.mem_map.mp mem
  exact (put d.entries e inside).imp_left fun old => List.mem_map_of_mem old

/-- What is left after a key has been taken was there before. -/
theorem mem_erase (mem : p ∈ (d.erase k).values) : p ∈ d.values := by
  have drop : ∀ (es : List (Key × Handle)), ∀ e ∈ Dictionary.drop k es, e ∈ es := by
    intro es
    induction es with
    | nil => simp [Dictionary.drop]
    | cons f es ih =>
      intro e mem
      simp only [Dictionary.drop] at mem
      split at mem
      · simp [mem]
      · obtain rfl | mem := List.mem_cons.mp mem
        · simp
        · simp [ih e mem]
  obtain ⟨e, inside, rfl⟩ := List.mem_map.mp mem
  exact List.mem_map_of_mem (drop d.entries e inside)

theorem mem_of_get? (found : d.get? k = some v) : v ∈ d.values := by
  have find : ∀ (es : List (Key × Handle)), Dictionary.find k es = some v → ∃ e ∈ es, e.2 = v := by
    intro es
    induction es with
    | nil => simp [Dictionary.find]
    | cons f es ih =>
      intro found
      simp only [Dictionary.find] at found
      split at found
      · exact ⟨f, by simp, by simpa using found⟩
      · obtain ⟨e, mem, same⟩ := ih found
        exact ⟨e, by simp [mem], same⟩
  obtain ⟨e, mem, rfl⟩ := find d.entries found
  exact List.mem_map_of_mem mem

end Dictionary

/-- Only integers have bounds to keep, so contents of other kinds fit always. -/
theorem Data.fits_array {s : Sequence Handle} : (Data.array s).Fits := by
  rintro i b e
  cases e

theorem Data.fits_dictionary {d : Dictionary Handle} : (Data.dictionary d).Fits := by
  rintro i b e
  cases e

theorem Data.fits_record {r : Record Handle} : (Data.record r).Fits := by
  rintro i b e
  cases e

namespace Heap

open Course

variable {typed : Prop} {P : Handle → Prop} {h : Heap} {target value key : Handle}

/-- A question that yields no value. -/
theorem sound_ask {α : Type} {f : Heap → Except Fault α} :
    HeapM.Sound (HeapM.ask f) [] fun _ => [] :=
  fun _ _ _ region _ => Leads.ask region fun _ _ => by simp

/-- A look at the heap is sound for any values: it changes nothing and yields none. -/
theorem sound_look {α : Type} {f : Heap → α} : HeapM.Sound (HeapM.look f) [] fun _ => [] :=
  fun _ _ _ region _ => Leads.look region (by simp)

/-- What comes after a value has been searched for a container, and the container was not found. -/
theorem leads_rejectCycleBind {β : Type} {k : Unit → HeapM β} {R : β → Heap → Prop}
    (region : h.Realm typed P)
    (next : ¬ h.Reaches value target → (course typed P).Leads (k ()) h R) :
    (course typed P).Leads (HeapM.rejectCycle target value >>= k) h R := by
  refine Leads.askBind region fun _ run => ?_
  split at run
  · cases run
  next missed => exact next fun reach => missed (reaches_eq_true_iff.mpr reach)

/-! ## Changing a container -/

/-- Storing elements in an array, beside those that it has. -/
theorem leads_store {s t : Sequence Handle} (region : h.Realm typed P) (owned : h.Owned P target)
    (held : h.data target = .array s) (keeps : (Data.array s).Keeps (.array t))
    (items : ∀ p ∈ t.items, p ∈ s.items ∨ h.Owned P p ∧ ¬ h.Reaches p target ∧
      (typed → h.Admits target p)) :
    (course typed P).Leads (HeapM.write target (.array t)) h fun _ _ => True := by
  have inside : ∀ {p}, p ∈ s.items → p ∈ h.parts target :=
    fun mem => by simpa only [parts, held, Data.parts] using mem
  refine leads_replace region owned (fun p part => ?_) (held ▸ keeps) Data.fits_array
    fun on p part => ?_
  · obtain old | ⟨taken, away, -⟩ := items p part
    · exact .inl (inside old)
    · exact .inr ⟨taken, away⟩
  · rw [Data.Admits, keeps.elementKind?, ← held]
    obtain old | ⟨-, -, admitted⟩ := items p part
    · exact region.homogeneous on target p (inside old)
    · exact admitted on

/-- The check of an addition lets only admitted kinds pass. -/
theorem admits_of_check {s : Sequence Handle} {k : Kind} {u : Unit}
    (check : HeapM.checkElement s.element k = .ok u) : (Data.array s).Admits k := by
  intro e declared _
  obtain ⟨t, element, rfl⟩ := Option.mem_map.mp declared
  rw [Option.mem_def.mp element, HeapM.checkElement] at check
  split at check
  next same => exact same.symm
  · cases check

/-- An array or an executable grows by what it is given, if that does not lead back to it. -/
theorem sound_add : HeapM.Sound (HeapM.add target value) [target, value] fun _ => [] := by
  intro typed P h region given
  have owned := given target (by simp)
  have taken := given value (by simp)
  unfold HeapM.add
  refine Leads.lookBind ?_
  cases held : h.data target with
  | array s =>
    refine leads_rejectCycleBind region fun away => Leads.writableBind region fun _ =>
      Leads.lookBind ?_
    refine Leads.ofBind region fun _ check => Leads.ofBind region fun t run => ?_
    obtain ⟨keeps, items⟩ := Sequence.push_keeps run
    refine (leads_store region owned held keeps fun p part => ?_).weaken fun _ _ _ _ _ => by simp
    refine (items p part).imp_right ?_
    rintro rfl
    refine ⟨taken, away, fun _ => ?_⟩
    rw [Heap.Admits, held]
    exact admits_of_check check
  | leaf l =>
    cases l with
    | executable e =>
      refine Leads.lookBind ?_
      dsimp only
      split
      · exact .throw region
      · refine Leads.writableBind region fun _ => Leads.ofBind region fun m _ => ?_
        exact (leads_writeLeaf region owned (held ▸ ⟨_, rfl, rfl⟩)
          (Data.fits_of_not_integer (by simp [Leaf.kind]))).weaken fun _ _ _ _ _ => by simp
    | _ => exact .throw region
  | _ => exact .throw region

/-- A dictionary takes a value under a key, if the value does not lead back to it. -/
theorem sound_insertKey :
    HeapM.Sound (HeapM.insertKey target key value) [target, key, value] fun _ => [] := by
  intro typed P h region given
  have owned := given target (by simp)
  unfold HeapM.insertKey
  refine Leads.askBind region fun k _ => leads_rejectCycleBind region fun away =>
    Leads.writableBind region fun _ => ?_
  cases held : h.data target with
  | dictionary d =>
    refine (leads_replace region owned (fun p part => ?_) (held ▸ ⟨_, rfl⟩) Data.fits_dictionary
      fun _ => Data.homogeneous_of_untyped rfl).weaken fun _ _ _ _ _ => by simp
    obtain old | rfl := Dictionary.mem_insert part
    · exact .inl (by simpa only [parts, held, Data.parts] using old)
    · exact .inr ⟨given p (by simp), away⟩
  | _ => exact .throw region

/-- Inserting a value at a place, one that is admitted there unless the operation fails. -/
theorem leads_insertAt {position : Integer} (region : h.Realm typed P) (owned : h.Owned P target)
    (taken : h.Owned P value)
    (admitted : typed → (HeapM.insertAt target value position).succeeds h = true →
      h.Admits target value) :
    (course typed P).Leads (HeapM.insertAt target value position) h fun _ _ => True := by
  unfold HeapM.insertAt
  refine leads_rejectCycleBind region fun away => Leads.writableBind region fun unlocked => ?_
  cases held : h.data target with
  | array s =>
    refine Leads.ofBind region fun t run => ?_
    obtain ⟨keeps, items⟩ := Sequence.insert_keeps run
    have whole : HeapM.insertAt target value position h =
        .ok () (h.setCell target ⟨.array t, false⟩) := by
      apply (HeapM.bind_of_ok (HeapM.rejectCycle_of_not_reaches away) _).trans
      apply (HeapM.bind_of_ok (HeapM.writable_of_unlocked unlocked) _).trans
      rw [held]
      exact HeapM.store_of_ok run unlocked
    refine leads_store region owned held keeps fun p part => (items p part).imp_right ?_
    rintro rfl
    exact ⟨taken, away, fun on => admitted on (HeapM.succeeds_of_ok whole)⟩
  | _ => exact .throw region

/-- A swap needs no cycle check, since it adds nothing. -/
theorem sound_swap {a b : Integer} : HeapM.Sound (HeapM.swap target a b) [target] fun _ => [] := by
  intro typed P h region given
  have owned := given target (by simp)
  unfold HeapM.swap
  refine Leads.writableBind region fun _ => ?_
  cases held : h.data target with
  | array s =>
    refine Leads.ofBind region fun t run => ?_
    obtain ⟨keeps, items⟩ := Sequence.swap_keeps run
    exact (leads_store region owned held keeps fun p part => .inl (items p part)).weaken
      fun _ _ _ _ _ => by simp
  | _ => exact .throw region

/-- Putting values in place of all elements, values that are admitted there unless the operation
fails. -/
theorem leads_setElements {items : List Handle} (region : h.Realm typed P)
    (owned : h.Owned P target) (taken : ∀ v ∈ items, h.Owned P v)
    (admitted : typed → (HeapM.setElements target items).succeeds h = true →
      ∀ v ∈ items, h.Admits target v) :
    (course typed P).Leads (HeapM.setElements target items) h fun _ _ => True := by
  obtain ⟨away, searched⟩ | ⟨-, refused⟩ := HeapM.rejectCycles_cases h target items
  · refine Leads.continued ?_ (HeapM.bind_of_ok searched _) .refl
    refine Leads.writableBind region fun unlocked => ?_
    cases held : h.data target with
    | array s =>
      refine Leads.ofBind region fun t run => ?_
      obtain ⟨keeps, rfl⟩ := Sequence.replace_keeps run
      have whole : HeapM.setElements target t.items h =
          .ok () (h.setCell target ⟨.array t, false⟩) := by
        apply (HeapM.bind_of_ok searched _).trans
        apply (HeapM.bind_of_ok (HeapM.writable_of_unlocked unlocked) _).trans
        rw [held]
        exact HeapM.store_of_ok run unlocked
      refine leads_store region owned held keeps fun p part =>
        .inr ⟨taken p part, away p part, fun on => ?_⟩
      exact admitted on (HeapM.succeeds_of_ok whole) p part
    | _ => exact .throw region
  · exact Leads.of_error (HeapM.bind_of_error refused _) region .refl

/-- What is taken out of a dictionary may be used: it was a part. -/
theorem sound_removeKey :
    HeapM.Sound (HeapM.removeKey target key) [target, key] fun v => v.toList := by
  intro typed P h region given
  have owned := given target (by simp)
  unfold HeapM.removeKey
  refine Leads.askBind region fun k _ => Leads.writableBind region fun _ => ?_
  cases held : h.data target with
  | dictionary d =>
    have inside : ∀ {p}, p ∈ d.values → p ∈ h.parts target :=
      fun mem => by simpa only [parts, held, Data.parts] using mem
    have erased : ∀ p ∈ (Data.dictionary (d.erase k)).parts, p ∈ h.parts target ∨ h.Owned P p ∧
        ¬ h.Reaches p target :=
      fun p part => .inl (inside (Dictionary.mem_erase part))
    refine (leads_replace region owned erased (held ▸ ⟨_, rfl⟩) Data.fits_dictionary
      fun _ => Data.homogeneous_of_untyped rfl).bind fun _ t state gone _ => ?_
    refine .pure state fun v mem => ?_
    have found : d.get? k = some v := by simpa using mem
    exact Owned.changes (region.part owned (inside (Dictionary.mem_of_get? found))) gone
  | _ => exact .throw region

/-! ## Looking into a container -/

/-- An element is a part of its array. -/
theorem sound_elementAt {index : Integer} :
    HeapM.Sound (HeapM.elementAt target index) [target] fun v => [v] := by
  intro typed P h region given
  refine Leads.ask region fun v run => ?_
  split at run
  next s held =>
    have part : v ∈ h.parts target := by
      simpa only [parts, held, Data.parts] using Sequence.mem_of_get run
    simpa using region.part (given target (by simp)) part
  · cases run

/-- Reading an absent key makes an entry for it; a cell that has just been made holds nothing. -/
theorem sound_element : HeapM.Sound (HeapM.element target key) [target, key] fun v => [v] := by
  intro typed P h region given
  have owned := given target (by simp)
  unfold HeapM.element
  refine Leads.lookBind ?_
  cases held : h.data target with
  | array s =>
    exact Leads.askBind region fun i _ => sound_elementAt P h region (by simpa using owned)
  | dictionary d =>
    refine Leads.askBind region fun k _ => ?_
    dsimp only
    split
    next v found =>
      have part : v ∈ h.parts target := by
        simpa only [parts, held, Data.parts] using Dictionary.mem_of_get? found
      exact .pure region (by simpa using region.part owned part)
    · refine Leads.writableBind region fun _ => (leads_newLeaf region fits_null).bind ?_
      rintro _ _ state gone ⟨made, rfl, rfl⟩
      have ext := extends_push h ⟨.leaf .null, false⟩
      have same : (h.push ⟨.leaf .null, false⟩).cell target = h.cell target :=
        ext.cell target owned.1
      have placed : ∀ p ∈ (Data.dictionary (d.insert k ⟨h.size⟩)).parts,
          p ∈ (h.push ⟨.leaf .null, false⟩).parts target ∨ (h.push ⟨.leaf .null, false⟩).Owned P p ∧
          ¬ (h.push ⟨.leaf .null, false⟩).Reaches p target := by
        intro p part
        obtain old | rfl := Dictionary.mem_insert part
        · rw [parts_congr same]
          exact .inl (by simpa only [parts, held, Data.parts] using old)
        · refine .inr ⟨made, fun reach => ?_⟩
          cases reach with
          | refl => exact not_made_next h owned.1
          | step part _ => simp [parts, data, Data.parts] at part
      have keeps : ((h.push ⟨.leaf .null, false⟩).data target).Keeps
          (.dictionary (d.insert k ⟨h.size⟩)) := by
        rw [data_congr same, held]
        exact ⟨_, rfl⟩
      refine (leads_replace state (owned.changes gone) placed keeps Data.fits_dictionary
        fun _ => Data.homogeneous_of_untyped rfl).bind fun _ _ state later _ => .pure state ?_
      simpa using made.changes later
  | _ => exact .throw region

theorem sound_elements : HeapM.Sound (HeapM.elements target) [target] fun vs => vs := by
  intro typed P h region given
  refine Leads.ask region fun vs run v mem => ?_
  split at run
  next s held =>
    cases run
    exact region.part (given target (by simp)) (by simpa only [parts, held, Data.parts] using mem)
  · cases run

theorem sound_getKey : HeapM.Sound (HeapM.getKey target key) [target, key] fun v => v.toList := by
  intro typed P h region given
  refine Leads.askBind region fun k _ => Leads.lookBind ?_
  cases held : h.data target with
  | dictionary d =>
    refine .pure region fun v mem => ?_
    have found : d.get? k = some v := by simpa using mem
    exact region.part (given target (by simp))
      (by simpa only [parts, held, Data.parts] using Dictionary.mem_of_get? found)
  | _ => exact .throw region

/-- New leaves, one for each of some contents without bounds. -/
theorem leads_newLeaves {α : Type} {l : List α} {f : α → Leaf} (region : h.Realm typed P)
    (fits : ∀ a ∈ l, (Data.leaf (f a) : Data Handle).Fits) :
    (course typed P).Leads (l.mapM fun a => HeapM.newLeaf (f a)) h fun vs h' =>
      ∀ v ∈ vs, h'.Owned P v :=
  Leads.mapM (R := fun v h => h.Owned P v) (fun _ _ _ owned gone => owned.changes gone) region
    fun a mem _ state _ =>
      (leads_newLeaf state (fits a mem)).weaken fun _ _ _ _ result => result.1

theorem Key.fits (k : Key) : (Data.leaf k.toLeaf : Data Handle).Fits := by
  cases k with
  | integer i => exact Data.fits_unbounded i
  | _ => exact Data.fits_of_not_integer (by simp [Key.toLeaf, Leaf.kind])

/-- The keys of a dictionary are given as new values. -/
theorem sound_keys : HeapM.Sound (HeapM.keys target) [target] fun vs => vs := by
  intro typed P h region given
  refine Leads.lookBind ?_
  cases held : h.data target with
  | dictionary d => exact leads_newLeaves region fun k _ => Key.fits k
  | _ => exact .throw region

/-- A member is a part of its structure. A property of an array is a new value. -/
theorem sound_member {name : String} :
    HeapM.Sound (HeapM.member target name) [target] fun v => [v] := by
  intro typed P h region given
  refine Leads.lookBind ?_
  cases held : h.data target with
  | record r =>
    refine Leads.of region fun v run => ?_
    have part : v ∈ h.parts target := by simpa only [parts, held, Data.parts] using mem_of_get run
    simpa using region.part (given target (by simp)) part
  | array s =>
    refine Leads.ofBind region fun l run => sound_allocLeaf ?_ P h region (by simp)
    unfold HeapM.arrayProperty at run
    split_ifs at run <;> cases run
    · exact Data.fits_unbounded _
    · exact Data.fits_unbounded _
    · exact Data.fits_unbounded _
    · exact Data.fits_of_not_integer (by simp [Leaf.kind])
  | _ => exact .throw region

/-! ## Conversion -/

/-- A converted value has no bounds. -/
theorem fits_of_convert {kind : Kind} {d : Data Handle} {l : Leaf} (run : d.convert kind = .ok l) :
    (Data.leaf l : Data Handle).Fits := by
  unfold Data.convert at run
  split at run
  · obtain ⟨_, -, rfl⟩ := Except.ok_of_map run
    exact Data.fits_of_not_integer (by simp [Leaf.kind])
  · obtain ⟨i, -, rfl⟩ := Except.ok_of_map run
    exact Data.fits_unbounded i
  · obtain ⟨_, -, rfl⟩ := Except.ok_of_map run
    exact Data.fits_of_not_integer (by simp [Leaf.kind])
  · obtain ⟨_, -, rfl⟩ := Except.ok_of_map run
    exact Data.fits_of_not_integer (by simp [Leaf.kind])
  · cases run

theorem fits_of_convertItem {kind : Kind} {d : Data Handle} {l : Leaf}
    (run : HeapM.convertItem kind d = .ok l) : (Data.leaf l : Data Handle).Fits := by
  unfold HeapM.convertItem at run
  split at run
  · cases run
  · exact fits_of_convert run

/-- A cast makes a new value, and new elements if it is of an array. -/
theorem sound_cast {kind : Kind} : HeapM.Sound (HeapM.cast kind value) [value] fun v => [v] := by
  intro typed P h region given
  refine Leads.lookBind ?_
  split
  next s held =>
    have leaves : (course typed P).Leads
        (s.items.mapM fun i => HeapM.ask fun h => HeapM.convertItem kind (h.data i)) h
        fun ls _ => ∀ l ∈ ls, (Data.leaf l : Data Handle).Fits :=
      Leads.mapM (R := fun l _ => (Data.leaf l : Data Handle).Fits)
        (fun _ _ _ fits _ => fits) region
        fun i _ _ state _ => Leads.ask state fun l run => fits_of_convertItem run
    refine leaves.bind fun ls t state _ fits => ?_
    refine (leads_newLeaves (f := fun l => l) state fits).bind fun vs u state _ owned => ?_
    exact sound_new (d := .array (.ofItems s.start vs .refuse)) Data.fits_array rfl P u state owned
  · exact Leads.ofBind region fun l run => sound_newLeaf (fits_of_convert run) P h region (by simp)

/-! ## Declared values and types -/

/-- Values of a ranged type start in their range. -/
theorem Bounds.holds_start (b : Bounds Integer) : b.holds b.start = true := by
  unfold Bounds.start
  split
  · assumption
  · have ordered : b.least.toInt ≤ b.greatest.toInt := Int64.le_iff_toInt_le.mp b.ordered
    simp [Bounds.holds, Int64.le_iff_toInt_le, ordered]

/-- A new cell has the kind of its contents. -/
theorem leads_newKind {d : Data Handle} (region : h.Realm typed P) (parts : h.OwnedParts P d)
    (fits : d.Fits) (admits : typed → d.Homogeneous h.kind) :
    (course typed P).Leads (HeapM.new d) h fun v h' => h'.Owned P v ∧ h'.kind v = d.kind := by
  refine (leads_new region parts fits admits).weaken ?_
  rintro _ _ - - ⟨owned, rfl, rfl⟩
  exact ⟨owned, by simp [Heap.kind, data]⟩

theorem leads_newLeafKind {l : Leaf} (region : h.Realm typed P)
    (fits : (Data.leaf l : Data Handle).Fits) :
    (course typed P).Leads (HeapM.newLeaf l) h fun v h' => h'.Owned P v ∧ h'.kind v = l.kind :=
  leads_newKind region (fun _ part => absurd part List.not_mem_nil) fits fun _ =>
    Data.homogeneous_of_untyped rfl

mutual

/-- A declared value has the kind of its type, and so have the elements of a declared array. -/
theorem leads_declare : (t : TypeDesc) → ∀ {h : Heap}, h.Realm typed P →
    (course typed P).Leads (HeapM.declare t) h fun v h' => h'.Owned P v ∧ h'.kind v = t.kind
  | .null, _, region => leads_newLeafKind region fits_null
  | .boolean, _, region => leads_newLeafKind region (Data.fits_of_not_integer (by simp [Leaf.kind]))
  | .integer, _, region => leads_newLeafKind region (Data.fits_unbounded 0)
  | .rangedInteger b, _, region => leads_newLeafKind region fun i c e => by
    cases e
    exact Bounds.holds_start b
  | .real, _, region => leads_newLeafKind region (Data.fits_of_not_integer (by simp [Leaf.kind]))
  | .rangedReal b, _, region =>
    leads_newLeafKind region (Data.fits_of_not_integer (by simp [Leaf.kind]))
  | .string, _, region => leads_newLeafKind region (Data.fits_of_not_integer (by simp [Leaf.kind]))
  | .dictionary, _, region =>
    leads_newKind region (fun _ part => absurd part List.not_mem_nil) Data.fits_dictionary
      fun _ => Data.homogeneous_of_untyped rfl
  | .array start finish element policy, h, region => by
    have slots : (course typed P).Leads
        ((List.replicate (TypeDesc.slots start finish) ()).mapM fun _ => HeapM.declare element) h
        fun vs h' => ∀ v ∈ vs, h'.Owned P v ∧
        (element.kind ≠ .null → h'.kind v = element.kind) := by
      refine Leads.mapM (R := fun (v : Handle) (h : Heap) => h.Owned P v ∧
        (element.kind ≠ .null → h.kind v = element.kind)) ?_ region ?_
      · intro v t u ⟨owned, kind⟩ gone
        exact ⟨owned.changes gone, fun other => (gone.kind (kind other ▸ other)).trans (kind other)⟩
      · intro _ _ t state _
        exact (leads_declare element state).weaken fun v u _ _ made => ⟨made.1, fun _ => made.2⟩
    refine slots.bind fun vs t state _ made => ?_
    have parts : t.OwnedParts P (.array (.declared start vs element policy)) :=
      fun v mem => (made v mem).1
    refine leads_newKind state parts Data.fits_array fun _ v mem k declared other => ?_
    obtain rfl : element.kind = k := Option.some.inj declared
    exact (made v mem).2 other
  | .record name members, h, region => by
    refine (leads_declareMembers members region).bind fun vs t state _ owned => ?_
    have parts : t.OwnedParts P (.record (.declared ⟨name, members⟩ vs)) :=
      fun v mem => owned v (Record.mem_ofMembers mem)
    exact leads_newKind state parts Data.fits_record fun _ => Data.homogeneous_of_untyped rfl

/-- The values of declared members are owned, one after the other. -/
theorem leads_declareMembers : (ms : List (String × TypeDesc)) → ∀ {h : Heap}, h.Realm typed P →
    (course typed P).Leads (HeapM.declareMembers ms) h fun vs h' => ∀ v ∈ vs.map (·.2), h'.Owned P v
  | [], _, region => .pure region (by simp)
  | (n, t) :: ms, _, region => by
    refine (leads_declare t region).bind fun v u state _ first => ?_
    refine (leads_declareMembers ms state).bind fun vs w state later rest => .pure state ?_
    intro x mem
    obtain rfl | mem := List.mem_cons.mp mem
    · exact first.1.changes later
    · exact rest x mem

end

/-- A declared value is made of new cells. -/
theorem sound_declare (t : TypeDesc) : HeapM.Sound (HeapM.declare t) [] fun v => [v] :=
  fun _ _ _ region _ => (leads_declare t region).weaken fun _ _ _ _ made => by simpa using made.1

/-- So is one that is declared from a type in the heap. -/
theorem sound_declareFrom : HeapM.Sound (HeapM.declareFrom value) [value] fun v => [v] := by
  intro typed P h region given
  refine Leads.lookBind ?_
  dsimp only
  split
  next t _ => exact sound_declare t P h region (by simp)
  · exact .throw region

/-- The type of a value is a new value, or the value itself if it is a type. -/
theorem sound_typeOf : HeapM.Sound (HeapM.typeOf value) [value] fun v => [v] := by
  intro typed P h region given
  unfold HeapM.typeOf
  refine Leads.lookBind ?_
  split
  · exact .pure region (by simpa using given value)
  · refine Leads.askBind region fun t _ => ?_
    cases t with
    | some t =>
      exact sound_newLeaf (Data.fits_of_not_integer (by simp [Leaf.kind])) P h region (by simp)
    | none => exact sound_newNull P h region (by simp)

/-- A function is a new value, if its parameters have different names. -/
theorem sound_newFunction {name : String} {params : List Param} {body : Body} :
    HeapM.Sound (HeapM.newFunction name params body) [] fun v => [v] := by
  intro typed P h region _
  refine Leads.ofBind region fun _ _ => (leads_stamp region).bind fun c t state _ _ => ?_
  exact sound_newLeaf (Data.fits_of_not_integer (by simp [Leaf.kind])) P t state (by simp)

/-! ## Versions and reports of faults -/

/-- A new leaf assigned to a member of a structure. -/
theorem leads_setMember {name : String} {l : Leaf} (region : h.Realm typed P)
    (owned : h.Owned P target) (fits : (Data.leaf l : Data Handle).Fits) :
    (course typed P).Leads (do HeapM.assign (← HeapM.member target name) (← HeapM.newLeaf l)) h
      fun _ _ => True := by
  refine (sound_member P h region (by simpa using owned)).bind fun m t state _ member => ?_
  exact leads_assignLeaf state (member m (by simp)) fits

/-- A version is declared, and then its numbers are assigned to its members. -/
theorem sound_makeVersion {numbers : Integer × Integer × Integer} :
    HeapM.Sound (Version.make numbers) [] fun v => [v] := by
  intro typed P h region _
  refine (sound_declare Version.type P h region (by simp)).bind fun v t state _ made => ?_
  have owned := made v (by simp)
  refine (leads_setMember state owned (Data.fits_unbounded _)).bind fun _ t state gone _ => ?_
  have owned := owned.changes gone
  refine (leads_setMember state owned (Data.fits_unbounded _)).bind fun _ t state gone _ => ?_
  have owned := owned.changes gone
  refine (leads_setMember state owned (Data.fits_unbounded _)).bind fun _ t state gone _ => ?_
  exact .pure state (by simpa using owned.changes gone)

theorem sound_versionNumbers : HeapM.Sound (Version.numbers value) [value] fun _ => [] := by
  intro typed P h region given
  unfold Version.numbers
  refine Leads.lookBind ?_
  dsimp only
  split
  · exact .throw region
  · have number : ∀ {t : Heap} {name : String}, t.Realm typed P → t.Owned P value →
        (course typed P).Leads (HeapM.member value name) t fun _ _ => True := fun state owned =>
      (sound_member P _ state (by simpa using owned)).weaken fun _ _ _ _ _ => trivial
    have owned := given value (by simp)
    refine (number region owned).bind fun _ t state gone _ => Leads.askBind state fun _ _ => ?_
    have owned := owned.changes gone
    refine (number state owned).bind fun _ t state gone _ => Leads.askBind state fun _ _ => ?_
    have owned := owned.changes gone
    refine (number state owned).bind fun _ t state gone _ => Leads.askBind state fun _ _ => ?_
    exact .pure state (by simp)

end Heap

end ScriptHost
