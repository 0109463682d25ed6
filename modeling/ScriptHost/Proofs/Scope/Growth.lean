import ScriptHost.Proofs.Heap.Copy
import ScriptHost.Scope.Environment

/-!
# How tables and scopes grow

A table is only ever added to: `SymbolTable.growing V` is the course of tables that bind values with
a property `V`, each going over into tables with more bindings in front of the old ones.
`Scope.growing V F` is the same for scopes with the frames `F` at the bottom of their stacks: frames
are pushed, bindings are added to the base table or to a frame above `F`, the limit of the stack
stays, and no frame is dropped.
-/

set_option autoImplicit false

namespace ScriptHost

open Course

namespace SymbolTable

variable {V W : Handle → Prop} {t : SymbolTable} {v : Handle}

/-- Every value that a table binds has a property. -/
def Within (V : Handle → Prop) (t : SymbolTable) : Prop := ∀ b ∈ t.bindings, V b.2

theorem Within.mono (within : t.Within V) (weaker : ∀ v, V v → W v) : t.Within W :=
  fun b mem => weaker _ (within b mem)

theorem within_empty : empty.Within V := fun _ mem => absurd mem (List.not_mem_nil)

/-- What is found under a symbol is bound to it. -/
theorem mem_of_get? {s : Symbol} (found : t.get? s = some v) : (s, v) ∈ t.bindings := by
  have bound : ∀ bs : List (Symbol × Handle), find s bs = some v → (s, v) ∈ bs := by
    intro bs found
    induction bs with
    | nil => cases found
    | cons b bs ih =>
      obtain ⟨r, w⟩ := b
      unfold find at found
      split at found
      next same =>
        cases found
        simp [same]
      · simp [ih found]
  exact bound t.bindings found

/-- What is found has the property. -/
theorem Within.get? {s : Symbol} (within : t.Within V) (found : t.get? s = some v) : V v :=
  within _ (mem_of_get? found)

/-- Tables that bind values with a property, and get more bindings. -/
def growing (V : Handle → Prop) : Course SymbolTable where
  holds := Within V
  goes t u := t.bindings <:+ u.bindings
  refl _ := List.suffix_rfl
  trans first second := first.trans second

/-- A table takes one more binding, or none. -/
theorem leads_bind {s : Symbol} (within : t.Within V) (allowed : V v) :
    (growing V).Leads (bind s v) t fun _ _ => True := by
  cases found : t.get? s with
  | some w =>
    have run : bind s v t = .error (.symbolTaken s.key) t := by simp only [bind, found]
    exact .of_error run within List.suffix_rfl
  | none =>
    have run : bind s v t = .ok () ⟨(s, v) :: t.bindings⟩ := by simp only [bind, found]
    refine .of_ok run ?_ (List.suffix_cons _ _) trivial
    intro b mem
    obtain rfl | mem := List.mem_cons.mp mem
    · exact allowed
    · exact within b mem

/-- A value is bound under several symbols by binding it under each of them, or not at all. -/
theorem leads_bindEach {C : Course SymbolTable} {symbols : List Symbol} (held : C.holds t)
    (binds : ∀ r ∈ symbols, ∀ u, C.holds u → C.Leads (bind r v) u fun _ _ => True) :
    C.Leads (bindAll symbols v) t fun _ _ => True := by
  have check : C.Leads (checkFree symbols) t fun _ _ => True := by
    cases found : symbols.find? fun s => (t.get? s).isSome with
    | some s =>
      have run : checkFree symbols t = .error (.symbolTaken s.key) t := by
        simp only [checkFree, found]
      exact .of_error run held (C.refl t)
    | none =>
      have run : checkFree symbols t = .ok () t := by simp only [checkFree, found]
      exact .of_ok run held (C.refl t) trivial
  exact check.bind fun _ _ held _ _ => Leads.forM held fun r mem u held _ => binds r mem u held

/-- Several symbols for one value. -/
theorem leads_bindAll {symbols : List Symbol} (within : t.Within V) (allowed : V v) :
    (growing V).Leads (bindAll symbols v) t fun _ _ => True :=
  leads_bindEach within fun _ _ _ within => leads_bind within allowed

/-- Several bindings. -/
theorem leads_load {bindings : List (Symbol × Handle)} (within : t.Within V)
    (allowed : ∀ b ∈ bindings, V b.2) : (growing V).Leads (load bindings) t fun _ _ => True :=
  Leads.forM within fun b mem _ within _ => leads_bind within (allowed b mem)

/-! ## Clones -/

/-- The values of a clone are those of the table, or copies of them. -/
theorem sound_cloned {kind : CloneKind} :
    (t.cloned kind).Sound (t.bindings.map (·.2)) fun bs => bs.map (·.2) := by
  intro typed P h region given
  have owned : ∀ b ∈ t.ordered, h.Owned P b.2 := fun b mem =>
    given b.2 (List.mem_map_of_mem ((List.mergeSort_perm _ _).mem_iff.mp mem))
  have shared : (Heap.course typed P).Leads (pure t.ordered : HeapM _) h fun bs h' =>
      ∀ v ∈ bs.map (·.2), h'.Owned P v :=
    .pure region (by simpa using fun v s mem => owned (s, v) mem)
  cases kind with
  | deep =>
    have clones : (Heap.course typed P).Leads
        (t.ordered.mapM fun b => do return (b.1, ← HeapM.cloneWith .deep b.2)) h
        fun bs h' => ∀ b ∈ bs, h'.Owned P b.2 :=
      Leads.mapM (R := fun (b : Symbol × Handle) h' => h'.Owned P b.2) (fun _ _ _ owned gone =>
        owned.changes gone) region fun b mem u state gone =>
          (Heap.sound_cloneWith P u state (by simpa using (owned b mem).changes gone)).bind
            fun c _ state _ made => .pure state (made c (by simp))
    exact clones.weaken fun bs _ _ _ owned => by simpa using fun v s mem => owned (s, v) mem
  | minimal => exact shared
  | shallow => exact shared

/-- So are those of a table made of a clone. -/
theorem sound_duplicate {kind : CloneKind} :
    (t.duplicate kind).Sound (t.bindings.map (·.2)) fun u => u.bindings.map (·.2) :=
  fun _ P h region given => (sound_cloned P h region given).bind fun _ _ state _ made =>
    .pure state made

end SymbolTable

namespace Scope

variable {V W : Handle → Prop} {F : List SymbolTable} {s : Scope} {v : Handle}

/-- Every value that a scope binds has a property. -/
structure Within (V : Handle → Prop) (s : Scope) : Prop where
  base : s.base.Within V
  frames : ∀ f ∈ s.stack.frames, f.Within V

theorem Within.mono (within : s.Within V) (weaker : ∀ v, V v → W v) : s.Within W :=
  ⟨within.base.mono weaker, fun f mem => (within.frames f mem).mono weaker⟩

theorem within_all (s : Scope) : s.Within fun _ => True :=
  ⟨fun _ _ => trivial, fun _ _ _ _ => trivial⟩

/-- What holds of the base table and of all frames holds of the tables in which a key is looked
up. -/
theorem forall_searchOrder {p : SymbolTable → Prop} (base : p s.base)
    (frames : ∀ f ∈ s.stack.frames, p f) (key : String) : ∀ t ∈ (s.searchOrder key).1, p t := by
  unfold Scope.searchOrder
  split
  · simpa using base
  · intro t mem
    obtain mem | mem := List.mem_append.mp mem
    · exact frames t mem
    · obtain rfl := List.mem_singleton.mp mem
      exact base

/-- A search goes through tables of the scope. -/
theorem Within.searchOrder (within : s.Within V) (key : String) :
    ∀ t ∈ (s.searchOrder key).1, t.Within V :=
  forall_searchOrder within.base within.frames key

/-- The first binding of a symbol in some tables. -/
theorem Within.findSome {tables : List SymbolTable} {r : Symbol} (within : ∀ t ∈ tables, t.Within V)
    (found : tables.findSome? (·.get? r) = some v) : V v := by
  obtain ⟨t, mem, found⟩ := List.exists_of_findSome?_eq_some found
  exact (within t mem).get? found

/-- What is found in a scope is bound in it. -/
theorem Within.find? {key : String} (within : s.Within V) (found : s.find? key = some v) : V v := by
  have order := within.searchOrder key
  unfold Scope.find? at found
  dsimp only at found
  split at found
  next plain =>
    cases found
    exact Within.findSome order plain
  · split at found
    · exact Within.findSome order found
    · cases found

theorem Within.findOverload? {key : String} {arity : Nat} (within : s.Within V)
    (found : s.findOverload? key arity = some v) : V v :=
  Within.findSome (within.searchOrder key) found

theorem Within.lookup {key : String} (within : s.Within V) (run : s.lookup key = .ok v) : V v := by
  unfold Scope.lookup at run
  split at run
  next found =>
    cases run
    exact within.find? found
  · cases run

theorem Within.lookupOverload {key : String} {arity : Nat} (within : s.Within V)
    (run : s.lookupOverload key arity = .ok v) : V v := by
  unfold Scope.lookupOverload at run
  split at run
  next found =>
    cases run
    exact within.findOverload? found
  · cases run

/-- Scopes that bind values with a property, above some frames. -/
def growing (V : Handle → Prop) (F : List SymbolTable) : Course Scope where
  holds s := s.Within V ∧ F <:+ s.stack.frames
  goes s t := s.base.bindings <:+ t.base.bindings ∧ t.stack.limit = s.stack.limit ∧
    s.stack.depth ≤ t.stack.depth
  refl _ := ⟨List.suffix_rfl, rfl, le_rfl⟩
  trans first second :=
    ⟨first.1.trans second.1, second.2.1.trans first.2.1, first.2.2.trans second.2.2⟩

/-- A frame is put above the others. -/
theorem leads_push {frame : SymbolTable} (within : s.Within V) (above : F <:+ s.stack.frames)
    (allowed : frame.Within V) : (growing V F).Leads (push frame) s fun _ _ => True := by
  by_cases full : s.stack.isFull
  · have run : push frame s = .error (.stackOverflow (s.stack.depth + 1) s.stack.limit) s := by
      simp only [push, onStack, Stack.push_of_isFull full]
    exact .of_error run ⟨within, above⟩ ((growing V F).refl s)
  · have run : push frame s = .ok () { s with stack := { s.stack with
        frames := frame :: s.stack.frames, attained :=
          max s.stack.attained (s.stack.depth + 1) } } := by
      simp only [push, onStack, Stack.push, full, Bool.false_eq_true, if_false]
    have deeper : s.stack.depth ≤ (frame :: s.stack.frames).length := Nat.le_succ _
    refine .of_ok run ⟨⟨within.base, ?_⟩,
      above.trans (List.suffix_cons _ _)⟩ ⟨List.suffix_rfl, rfl, deeper⟩ trivial
    intro f mem
    obtain rfl | mem := List.mem_cons.mp mem
    · exact allowed
    · exact within.frames f mem

/-- The others stay below it. -/
theorem frames_of_push {frame : SymbolTable} {u : Scope} (run : push frame s = .ok () u) :
    u.stack.frames = frame :: s.stack.frames := by
  unfold push onStack at run
  split at run
  next pushed =>
    cases run
    unfold Stack.push at pushed
    split at pushed
    · cases pushed
    · cases pushed
      rfl
  · cases run

/-- A step on the base table. -/
theorem leads_onBase {step : TableM Unit} (within : s.Within V) (above : F <:+ s.stack.frames)
    (steps : ∀ t : SymbolTable, t.Within V → (SymbolTable.growing V).Leads step t fun _ _ => True) :
    (growing V F).Leads (onBase step) s fun _ _ => True := by
  have base := steps s.base within.base
  cases ends : step s.base with
  | ok u t =>
    obtain ⟨kept, grown, _⟩ := base.ok ends
    have run : onBase step s = .ok () { s with base := t } := by simp only [onBase, ends]
    exact .of_ok run ⟨⟨kept, within.frames⟩, above⟩ ⟨grown, rfl, le_rfl⟩ trivial
  | error f t =>
    obtain ⟨kept, grown⟩ := base.error ends
    have run : onBase step s = .error f { s with base := t } := by simp only [onBase, ends]
    exact .of_error run ⟨⟨kept, within.frames⟩, above⟩ ⟨grown, rfl, le_rfl⟩

/-- A step over the innermost frame, which has to lie above the frames that stay. -/
theorem leads_onInnermost {step : TableM Unit} (within : s.Within V) (above : F <:+ s.stack.frames)
    (room : F = [] ∨ F.length < s.stack.depth)
    (steps : ∀ t : SymbolTable, t.Within V → (SymbolTable.growing V).Leads step t fun _ _ => True) :
    (growing V F).Leads (onInnermost step) s fun _ _ => True := by
  cases shape : s.stack.frames with
  | nil =>
    refine (leads_onBase within above steps).continued ?_ ((growing V F).refl s)
    simp only [onInnermost, shape]
  | cons frame frames =>
    rw [shape] at above
    have below : F <:+ frames := by
      obtain rfl | below := List.suffix_cons_iff.mp above
      · simp [Stack.depth, shape] at room
      · exact below
    have inner := steps frame (within.frames frame (by simp [shape]))
    have after : ∀ t : SymbolTable, t.Within V →
        Within V { s with stack := { s.stack with frames := t :: frames } } :=
      fun t kept => ⟨within.base, by
        simpa using ⟨kept, fun f mem => within.frames f (by simp [shape, mem])⟩⟩
    have deep : s.stack.depth ≤ frames.length + 1 := by simp [Stack.depth, shape]
    cases ends : step frame with
    | ok u t =>
      obtain ⟨kept, _, _⟩ := inner.ok ends
      have run : onInnermost step s =
          .ok () { s with stack := { s.stack with frames := t :: frames } } := by
        simp only [onInnermost, shape, ends]
      exact .of_ok run ⟨after t kept,
        below.trans (List.suffix_cons _ _)⟩ ⟨List.suffix_rfl, rfl, deep⟩ trivial
    | error f t =>
      obtain ⟨kept, _⟩ := inner.error ends
      have run : onInnermost step s =
          .error f { s with stack := { s.stack with frames := t :: frames } } := by
        simp only [onInnermost, shape, ends]
      exact .of_error run ⟨after t kept,
        below.trans (List.suffix_cons _ _)⟩ ⟨List.suffix_rfl, rfl, deep⟩

/-- Whether what is bound under a key leaves the frames `F` at the bottom of a stack alone. -/
def Spares (s : Scope) (F : List SymbolTable) (key : String) : Prop :=
  F = [] ∨ (unmark key).1 = true ∨ F.length < s.stack.depth

/-- A step on the table that a key is for, if that is not one of the frames to be spared. -/
theorem leads_onTarget {key : String} {step : String → TableM Unit} (within : s.Within V)
    (above : F <:+ s.stack.frames) (room : s.Spares F key)
    (steps : ∀ (name : String) (t : SymbolTable), t.Within V →
      (SymbolTable.growing V).Leads (step name) t fun _ _ => True) :
    (growing V F).Leads (onTarget key step) s fun _ _ => True := by
  unfold onTarget
  split
  next name _ => exact leads_onBase within above (steps name)
  next name bare =>
    refine leads_onInnermost within above ?_ (steps name)
    obtain none | marked | room := room
    · exact .inl none
    · simp [bare] at marked
    · exact .inr room

/-- A value is bound under all its symbols. -/
theorem leads_insert {key : String} {d : Data Handle} (within : s.Within V)
    (above : F <:+ s.stack.frames) (room : s.Spares F key) (allowed : V v) :
    (growing V F).Leads (insert key v d) s fun _ _ => True :=
  leads_onTarget within above room fun _ _ within => SymbolTable.leads_bindAll within allowed

/-- A value is bound under a plain symbol. -/
theorem leads_insertPlain {key : String} (within : s.Within V) (above : F <:+ s.stack.frames)
    (room : s.Spares F key) (allowed : V v) :
    (growing V F).Leads (insertPlain key v) s fun _ _ => True :=
  leads_onTarget within above room fun _ _ within => SymbolTable.leads_bind within allowed

end Scope

end ScriptHost
