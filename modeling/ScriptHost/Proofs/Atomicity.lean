import ScriptHost.Proofs.Heap.Hereditary
import ScriptHost.Proofs.Host.Distinct
import ScriptHost.Proofs.Mutation

/-!
# Failures that change nothing

A mutation that fails leaves the heap exactly as it was, and so does a look into a container that
would make an entry. The one exception is an assignment that goes on to the parts of its target: the
parts that come before the one that fails stay assigned. Whether it goes on is settled at the top,
by the kinds, the lengths and the names of the members (`Data.Enters`), and if it does not, then the
assignment is as atomic as the others. A symbol table takes all the symbols of an executable or none
of them.

Most operations read and then write once (`HeapM.Atomic.bind`). Those that make cells before they
write have found the target to be unlocked by then, and making cells locks nothing, so that what
comes after cannot fail.
-/

set_option autoImplicit false

namespace ScriptHost

open Course

/-- States that stay as they are. -/
def Course.still (σ : Type) : Course σ where
  holds _ := True
  goes s t := t = s
  refl _ := rfl
  trans first second := second.trans first

namespace HeapM

variable {α β : Type} {h h' : Heap} {target value : Handle} {f : Fault}

/-! ## Reading -/

instance still_dataOf (v : Handle) : (still Heap).KeptBy (dataOf v) := .look _

instance still_kindOf (v : Handle) : (still Heap).KeptBy (kindOf v) := .look _

instance still_asInteger (v : Handle) : (still Heap).KeptBy (asInteger v) := .ask _

instance still_writable (v : Handle) : (still Heap).KeptBy (writable v) := .ask _

instance still_elementAt (v : Handle) (index : Integer) : (still Heap).KeptBy (elementAt v index) :=
  .ask _

instance still_rejectCycle (v w : Handle) : (still Heap).KeptBy (rejectCycle v w) := .ask _

/-! ## Reading, then one change -/

/-- The step leaves the heap as it is if it fails. -/
class Atomic (m : HeapM α) : Prop where
  kept : ∀ {h h' f}, m h = .error f h' → h' = h

namespace Atomic

instance of_still (m : HeapM α) [reads : (still Heap).KeptBy m] : Atomic m :=
  ⟨fun run => ((reads.leads _ trivial).error run).2⟩

instance bind (m : HeapM α) (k : α → HeapM β) [reads : (still Heap).KeptBy m]
    [next : ∀ a, Atomic (k a)] : Atomic (m >>= k) := by
  refine ⟨fun {h h' f} run => ?_⟩
  cases first : m h with
  | error g t =>
    rw [bind_of_error first] at run
    cases run
    exact ((reads.leads h trivial).error first).2
  | ok a t =>
    obtain ⟨-, rfl, -⟩ := (reads.leads h trivial).ok first
    rw [bind_of_ok first] at run
    exact (next a).kept run

/-- What is made of the result in the end cannot fail. -/
instance map (m : HeapM α) (g : α → β) [atomic : Atomic m] :
    Atomic (m >>= fun a => pure (g a)) := by
  refine ⟨fun {h h' f} run => ?_⟩
  cases first : m h with
  | error e t =>
    rw [bind_of_error first] at run
    cases run
    exact atomic.kept first
  | ok a t =>
    rw [bind_of_ok first] at run
    cases run

instance write (v : Handle) (d : Data Handle) : Atomic (HeapM.write v d) := by
  refine ⟨fun {h h' f} run => ?_⟩
  unfold HeapM.write at run
  split at run
  · cases run
    rfl
  · cases run

end Atomic

instance atomic_add : Atomic (add target value) := by
  refine @Atomic.bind _ _ _ _ _ fun d => ?_
  cases d with
  | array s => infer_instance
  | dictionary d => infer_instance
  | record r => infer_instance
  | leaf l =>
    cases l with
    | executable e =>
      refine @Atomic.bind _ _ _ _ _ fun d => ?_
      cases d.asExecutable? <;> infer_instance
    | _ => infer_instance

instance atomic_insertKey {key : Handle} : Atomic (insertKey target key value) := by
  refine @Atomic.bind _ _ _ _ _ fun k => @Atomic.bind _ _ _ _ _ fun _ =>
    @Atomic.bind _ _ _ _ _ fun d => ?_
  cases d <;> infer_instance

instance atomic_insertAt {position : Integer} : Atomic (insertAt target value position) := by
  refine @Atomic.bind _ _ _ _ _ fun _ => @Atomic.bind _ _ _ _ _ fun d => ?_
  cases d <;> infer_instance

instance atomic_swap {a b : Integer} : Atomic (swap target a b) := by
  refine @Atomic.bind _ _ _ _ _ fun d => ?_
  cases d <;> infer_instance

instance atomic_setElements {items : List Handle} : Atomic (setElements target items) := by
  refine @Atomic.bind _ _ _ _ _ fun _ => @Atomic.bind _ _ _ _ _ fun d => ?_
  cases d <;> infer_instance

instance atomic_removeKey {key : Handle} : Atomic (removeKey target key) := by
  refine @Atomic.bind _ _ _ _ _ fun k => @Atomic.bind _ _ _ _ _ fun d => ?_
  cases d <;> infer_instance

/-! ## Changes after cells have been made -/

/-- What comes after a value has been found to be unlocked, in an operation that fails. -/
theorem kept_of_writable {k : Data Handle → HeapM β}
    (next : h.isLocked target = false → k (h.data target) h = .error f h' → h' = h)
    (run : (writable target >>= k) h = .error f h') : h' = h := by
  cases locked : h.isLocked target with
  | true =>
    rw [bind_of_error (writable_of_locked locked)] at run
    cases run
    rfl
  | false =>
    rw [bind_of_ok (writable_of_unlocked locked)] at run
    exact next locked run

theorem kept_of_check {x : Except Fault α} {k : α → HeapM β}
    (next : ∀ a, x = .ok a → k a h = .error f h' → h' = h) (run : (of x >>= k) h = .error f h') :
    h' = h := by
  cases checked : x with
  | error g =>
    rw [checked] at run
    cases run
    rfl
  | ok a =>
    rw [checked] at run
    exact next a checked run

/-- An unlocked value takes on a copy of any other one. -/
theorem exists_adopt (value : Handle) (unlocked : h.isLocked target = false) :
    ∃ h', (copyData value >>= write target) h = .ok () h' := by
  obtain ⟨d, t, copied, -, ext, -⟩ := Heap.extends_copyData value h
  exact ⟨_, (bind_of_ok copied _).trans (write_of_unlocked (ext.unlocked unlocked) d)⟩

instance atomic_element {index : Handle} : Atomic (element target index) := by
  refine @Atomic.bind _ _ _ _ _ fun d => ?_
  cases d with
  | array s => infer_instance
  | record r => infer_instance
  | leaf l => infer_instance
  | dictionary d =>
    refine @Atomic.bind _ _ _ _ _ fun k => ?_
    cases d.get? k with
    | some v => infer_instance
    | none =>
      refine ⟨fun {h h' f} run => kept_of_writable (fun unlocked run => ?_) run⟩
      have made : newLeaf .null h = .ok ⟨h.size⟩ (h.push ⟨.leaf .null, false⟩) := rfl
      have still := (Heap.extends_push h ⟨.leaf .null, false⟩).unlocked unlocked
      rw [bind_of_ok made, bind_of_ok (write_of_unlocked still (.dictionary (d.insert k ⟨h.size⟩)))]
        at run
      cases run

end HeapM

/-! ## Assignments -/

/-- Whether an assignment goes on to the parts: from an array to another one of its length, and from
a structure to another one with the same members. -/
def Data.Enters : Data Handle → Data Handle → Prop
  | .array s, .array t => t.length = s.length
  | .record r, .record q => q.length = r.length ∧ ∀ name ∈ q.names, name ∈ r.names
  | _, _ => False

instance Data.decidableEnters : (d e : Data Handle) → Decidable (d.Enters e)
  | .array s, .array t => inferInstanceAs (Decidable (t.length = s.length))
  | .record r, .record q =>
    inferInstanceAs (Decidable (q.length = r.length ∧ ∀ name ∈ q.names, name ∈ r.names))
  | .leaf _, _ | .dictionary _, _ => .isFalse id
  | .array _, .leaf _ | .array _, .dictionary _ | .array _, .record _ => .isFalse id
  | .record _, .leaf _ | .record _, .array _ | .record _, .dictionary _ => .isFalse id

theorem Data.eq_of_compound {d : Data Handle} (compound : d.kind = .array ∨ d.kind = .record) :
    (∃ s, d = .array s) ∨ ∃ r, d = .record r := by
  cases d with
  | array s => exact .inl ⟨s, rfl⟩
  | record r => exact .inr ⟨r, rfl⟩
  | dictionary d => simp [Data.kind] at compound
  | leaf l => cases l <;> simp [Data.kind, Leaf.kind] at compound

theorem Data.enters_self {d : Data Handle} (compound : d.kind = .array ∨ d.kind = .record) :
    d.Enters d := by
  obtain ⟨s, rfl⟩ | ⟨r, rfl⟩ := Data.eq_of_compound compound
  · exact rfl
  · exact ⟨rfl, fun _ mem => mem⟩

namespace HeapM

variable {h h' : Heap} {target source : Handle} {f : Fault}

theorem error_of_sourceItems {s : Sequence Handle} {d : Data Handle}
    (outside : ¬ (Data.array s).Enters d) : ∃ f, sourceItems d s.length = .error f := by
  unfold sourceItems
  split
  next t => exact ⟨_, if_neg outside⟩
  next => exact ⟨_, rfl⟩

theorem error_of_sourceMembers {r : Record Handle} {d : Data Handle}
    (outside : ¬ (Data.record r).Enters d) : ∃ f, sourceMembers d r.names = .error f := by
  unfold sourceMembers
  split
  next q =>
    refine ⟨_, if_neg fun fits => outside ⟨?_, fun name mem => ?_⟩⟩
    · simpa [Record.names, Record.length] using fits.1
    · exact List.contains_iff_mem.mp (List.all_eq_true.mp fits.2 name mem)
  next => exact ⟨_, rfl⟩

/-- An assignment that does not go on to the parts. -/
theorem kept_of_assign (outside : ¬ (h.data target).Enters (h.data source))
    (run : assign target source h = .error f h') : h' = h := by
  obtain ⟨part, opened⟩ := exists_assignOnce h target source
  rw [opened] at run
  refine kept_of_writable (fun unlocked run => ?_) run
  split at run
  next => cases run
  next =>
    have given : dataOf source h = .ok (h.data source) h := rfl
    rw [bind_of_ok given] at run
    obtain ⟨after, adopts⟩ := exists_adopt source unlocked
    cases held : h.data target with
    | leaf l =>
      cases l with
      | null =>
        simp only [held] at run
        cases adopts.symm.trans run
      | _ =>
        simp only [held] at run
        exact Atomic.kept run
    | dictionary d =>
      simp only [held] at run
      exact kept_of_check (fun _ _ run => by cases adopts.symm.trans run) run
    | array s =>
      rw [held] at outside
      simp only [held] at run
      obtain ⟨g, refused⟩ := error_of_sourceItems outside
      exact kept_of_check (fun a passed => by cases refused.symm.trans passed) run
    | record r =>
      rw [held] at outside
      simp only [held] at run
      obtain ⟨g, refused⟩ := error_of_sourceMembers outside
      exact kept_of_check (fun a passed => by cases refused.symm.trans passed) run

/-- An array or a structure that an assignment does not go on to is not assigned to. -/
theorem exists_error_of_assign (compound : h.kind target = .array ∨ h.kind target = .record)
    (outside : ¬ (h.data target).Enters (h.data source)) :
    ∃ f, assign target source h = .error f h := by
  cases run : assign target source h with
  | error f h' => exact ⟨f, by rw [kept_of_assign outside run]⟩
  | ok a h' =>
    obtain ⟨part, opened⟩ := exists_assignOnce h target source
    rw [opened] at run
    obtain ⟨unlocked, run⟩ := ok_of_writable run
    split at run
    next same => exact absurd (same ▸ Data.enters_self compound) outside
    next =>
      have given : dataOf source h = .ok (h.data source) h := rfl
      rw [bind_of_ok given] at run
      obtain ⟨s, held⟩ | ⟨r, held⟩ := Data.eq_of_compound compound
      · rw [held] at outside
        obtain ⟨g, refused⟩ := error_of_sourceItems outside
        simp only [held, refused] at run
        cases run
      · rw [held] at outside
        obtain ⟨g, refused⟩ := error_of_sourceMembers outside
        simp only [held, refused] at run
        cases run

end HeapM

/-! ## Bindings -/

namespace SymbolTable

variable {t : SymbolTable} {symbols : List Symbol} {v : Handle}

/-- Symbols that are free, each given once, are all bound. -/
theorem exists_forM_bind (distinct : symbols.Nodup) (free : ∀ r ∈ symbols, t.get? r = none) :
    ∃ u, symbols.forM (bind · v) t = .ok () u := by
  induction symbols generalizing t with
  | nil => exact ⟨t, rfl⟩
  | cons r symbols ih =>
    obtain ⟨new, distinct⟩ := List.nodup_cons.mp distinct
    have bound : bind r v t = .ok () ⟨(r, v) :: t.bindings⟩ := by simp only [bind, free r (by simp)]
    have others : ∀ q ∈ symbols, get? ⟨(r, v) :: t.bindings⟩ q = none := by
      intro q mem
      have other : q ≠ r := fun same => new (same ▸ mem)
      rw [get?_bind_ne bound other]
      exact free q (by simp [mem])
    obtain ⟨u, rest⟩ := ih distinct others
    refine ⟨u, ?_⟩
    change (bind r v >>= fun _ => symbols.forM (bind · v)) t = .ok () u
    simp only [Bind.bind, EStateM.bind, bound, rest]

/-- **All or none.** A taken symbol is found before anything is bound. -/
theorem bindAll_cases (distinct : symbols.Nodup) (t : SymbolTable) (v : Handle) :
    (∃ r ∈ symbols, (t.get? r).isSome = true ∧
      bindAll symbols v t = .error (.symbolTaken r.key) t) ∨
    ((∀ r ∈ symbols, t.get? r = none) ∧ ∃ u, bindAll symbols v t = .ok () u) := by
  cases found : symbols.find? fun s => (t.get? s).isSome with
  | some r =>
    have check : checkFree symbols t = .error (.symbolTaken r.key) t := by
      simp only [checkFree, found]
    refine .inl ⟨r, List.mem_of_find?_eq_some found, by simpa using List.find?_some found, ?_⟩
    simp only [bindAll, Bind.bind, EStateM.bind, check]
  | none =>
    have check : checkFree symbols t = .ok () t := by simp only [checkFree, found]
    have free : ∀ r ∈ symbols, t.get? r = none := by simpa using found
    obtain ⟨u, bound⟩ := exists_forM_bind (v := v) distinct free
    exact .inr ⟨free, u, by simp only [bindAll, Bind.bind, EStateM.bind, check, bound]⟩

theorem nodup_symbolsOf {d : Data Handle} (distinct : d.Distinct) (name : String) :
    (symbolsOf name d).Nodup := by
  unfold symbolsOf
  split
  next e => exact (distinct.arities).map fun a b same => by cases same; rfl
  next => exact List.nodup_singleton _

end SymbolTable

/-! ## Atomicity -/

/-- Whether a mutation concerns its target as a whole, and does not go on to its parts. -/
def Mutation.Whole (h : Heap) (target : Handle) : Mutation → Prop
  | .assign source => ¬ (h.data target).Enters (h.data source)
  | _ => True

theorem Mutation.kept {h h' : Heap} {target : Handle} {m : Mutation} {f : Fault}
    (whole : m.Whole h target) (run : m.perform target h = .error f h') : h' = h := by
  cases m with
  | assign source => exact HeapM.kept_of_assign whole run
  | add value => exact HeapM.atomic_add.kept run
  | insertKey key value => exact HeapM.atomic_insertKey.kept run
  | insertAt value position => exact HeapM.atomic_insertAt.kept run
  | swap a b => exact HeapM.atomic_swap.kept run
  | setElements items => exact HeapM.atomic_setElements.kept run
  | removeKey key => exact (HeapM.Atomic.map _ _).kept run

/-- **Failures change nothing.** A mutation that fails leaves the heap as it was, unless it is an
assignment that goes on to the parts of its target; an assignment to an array or a structure that
does not go on fails. A failing look into a container leaves the heap as it was. In a reachable
host, binding a value under its symbols fails as soon as one of them is taken, and leaves the table
as it was. -/
theorem failure_keeps (h : Heap) :
    (∀ target (m : Mutation) f h', m.Whole h target → m.perform target h = .error f h' → h' = h) ∧
    (∀ target source, h.kind target = .array ∨ h.kind target = .record →
      ¬ (h.data target).Enters (h.data source) → ∃ f, HeapM.assign target source h = .error f h) ∧
    (∀ target index f h', HeapM.element target index h = .error f h' → h' = h) ∧
    ∀ s : Host, s.Reachable → ∀ name v (t : SymbolTable),
      let symbols := SymbolTable.symbolsOf name (s.heap.data v)
      ((∃ r ∈ symbols, (t.get? r).isSome = true) →
        ∃ r ∈ symbols, SymbolTable.bindAll symbols v t = .error (.symbolTaken r.key) t) ∧
        ∀ f u, SymbolTable.bindAll symbols v t = .error f u → u = t := by
  refine ⟨fun target m f h' => Mutation.kept, fun target source => HeapM.exists_error_of_assign,
    fun target index f h' => HeapM.atomic_element.kept, fun s reachable name v t => ?_⟩
  have distinct := SymbolTable.nodup_symbolsOf (reachable.distinct v) name
  obtain ⟨r, mem, -, refused⟩ | ⟨free, w, bound⟩ := SymbolTable.bindAll_cases distinct t v
  · refine ⟨fun _ => ⟨r, mem, refused⟩, fun f u run => ?_⟩
    cases refused.symm.trans run
    rfl
  · refine ⟨fun ⟨r, mem, taken⟩ => by simp [free r mem] at taken, fun f u run => ?_⟩
    cases bound.symm.trans run

/-- Lists of different lengths, a position that is out of range, and a function of one and of two
parameters under a name that is taken for two. -/
theorem failure_keeps_lists :
    let list (is : List Integer) : Expr := .array 1 (is.map fun i => .literal (.integer i)) .refuse
    let s := Session.after (.bare .default)
      [.hold "long" (list [1, 2]), .hold "short" (list [3]),
        .hold "f" (.function "f" [⟨"x", .value⟩] []),
        .binary .add (.held "f") (.function "f" [⟨"x", .value⟩, ⟨"y", .value⟩] [])]
    let t : SymbolTable := ⟨[(.overload "f" 2, ⟨0⟩)]⟩
    (∃ f, HeapM.assign ⟨2⟩ ⟨4⟩ s.heap = .error f s.heap) ∧
      (∀ f h, (Mutation.insertAt ⟨4⟩ 7).perform ⟨2⟩ s.heap = .error f h → h = s.heap) ∧
      ∃ f, SymbolTable.bindAll [.overload "f" 1, .overload "f" 2] ⟨5⟩ t = .error f t := by
  intro list s t
  have reachable : s.Reachable := Host.reachable_after ⟨.default, true, [], none⟩ _
  obtain ⟨mutations, assigns, -, binds⟩ := failure_keeps s.heap
  have symbols : SymbolTable.symbolsOf "f" (s.heap.data ⟨5⟩) =
      [.overload "f" 1, .overload "f" 2] := by decide +kernel
  obtain ⟨binds, -⟩ := binds s reachable "f" ⟨5⟩ t
  rw [symbols] at binds
  obtain ⟨r, -, refused⟩ := binds ⟨.overload "f" 2, by decide, by decide⟩
  exact ⟨assigns ⟨2⟩ ⟨4⟩ (by decide +kernel) (by decide +kernel),
    fun f h => mutations ⟨2⟩ _ f h trivial, _, refused⟩

end ScriptHost
