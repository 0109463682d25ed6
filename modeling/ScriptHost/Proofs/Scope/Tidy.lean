import ScriptHost.Proofs.Heap.Lasting
import ScriptHost.Proofs.Scope.Growth

/-!
# Tidy tables and scopes

A table is tidy if it binds every symbol once, and if what it binds under an overload symbol is an
executable; where it has to be strict, an executable with an overload of that arity. Then
`SymbolTable.get?` finds a value exactly if it is bound, in whatever order the bindings stand. Every
step over a table keeps it tidy, whether it succeeds or fails half way, and it keeps every binding
that is there (`SymbolTable.keeping`). So do clones.

A stack is tidy if its frames are, and if it has no more frames than its limit allows and than it
has ever had.
-/

set_option autoImplicit false

namespace ScriptHost

open Course

/-- Whether contents can stand under a symbol. An overload is one of an executable and, where
`strict`, one that it has. -/
def Symbol.AnsweredBy (strict : Prop) (d : Data Handle) : Symbol → Prop
  | .plain _ => True
  | .overload _ arity => d.kind = .executable ∧ (strict → arity ∈ d.arities)

instance (strict : Prop) [Decidable strict] (d : Data Handle) :
    (r : Symbol) → Decidable (r.AnsweredBy strict d)
  | .plain _ => inferInstanceAs (Decidable True)
  | .overload _ arity =>
    inferInstanceAs (Decidable (d.kind = .executable ∧ (strict → arity ∈ d.arities)))

/-- A symbol is still answered when the value has gained overloads. -/
theorem Symbol.AnsweredBy.lasts {strict : Prop} {d e : Data Handle} {r : Symbol}
    (answered : r.AnsweredBy strict d) (lasts : d.Lasts strict e) : r.AnsweredBy strict e := by
  cases r with
  | plain name => trivial
  | overload name arity =>
    obtain ⟨kind, kept⟩ := lasts answered.1
    exact ⟨kind, fun on => kept on (answered.2 on)⟩

namespace SymbolTable

variable {strict : Prop} {h h' : Heap} {t u : SymbolTable} {r : Symbol} {v : Handle}

/-! ## What is bound -/

/-- The symbols that a table binds. -/
def symbols (t : SymbolTable) : List Symbol := t.bindings.map (·.1)

/-- A symbol is free exactly if it is not among the bound ones. -/
theorem get?_eq_none_iff : t.get? r = none ↔ r ∉ t.symbols := by
  obtain ⟨bs⟩ := t
  induction bs with
  | nil => simp [get?, find, symbols]
  | cons b bs ih =>
    obtain ⟨q, w⟩ := b
    simp only [get?, symbols, List.map_cons, List.mem_cons, not_or] at ih ⊢
    unfold find
    split
    next same => simp [same]
    next other => simp [ih, Ne.symm other]

/-- In a table that binds every symbol once, what is bound is found. -/
theorem get?_of_mem (distinct : t.symbols.Nodup) (mem : (r, v) ∈ t.bindings) :
    t.get? r = some v := by
  obtain ⟨bs⟩ := t
  induction bs with
  | nil => cases mem
  | cons b bs ih =>
    obtain ⟨q, w⟩ := b
    obtain ⟨free, rest⟩ := List.nodup_cons.mp distinct
    simp only [get?] at ih ⊢
    unfold find
    obtain same | mem := List.mem_cons.mp mem
    · cases same
      simp
    · have other : q ≠ r := by
        rintro rfl
        exact free (List.mem_map_of_mem (f := (·.1)) mem)
      rw [if_neg other]
      exact ih rest mem

/-! ## Bindings that stay -/

/-- Tables with a property, in which every binding stays. -/
def keeping (I : SymbolTable → Prop) : Course SymbolTable where
  holds := I
  goes t u := ∀ r v, t.get? r = some v → u.get? r = some v
  refl _ _ _ found := found
  trans first second r v found := second r v (first r v found)

section Keeping

variable {I : SymbolTable → Prop}

/-- A binding is refused, or put in front of the others. -/
theorem keeps_bind (held : I t) (grows : t.get? r = none → I ⟨(r, v) :: t.bindings⟩) :
    (keeping I).Leads (bind r v) t fun _ _ => True := by
  cases found : t.get? r with
  | some w =>
    have run : bind r v t = .error (.symbolTaken r.key) t := by simp only [bind, found]
    exact .of_error run held ((keeping I).refl t)
  | none =>
    have run : bind r v t = .ok () ⟨(r, v) :: t.bindings⟩ := by simp only [bind, found]
    refine .of_ok run (grows found) ?_ trivial
    intro q w there
    have other : q ≠ r := by
      rintro rfl
      rw [found] at there
      cases there
    rw [get?_bind_ne run other]
    exact there

/-- Several symbols for one value, one after the other. If one is taken, all are refused. -/
theorem keeps_bindAll {symbols : List Symbol} (held : I t)
    (grows : ∀ u, I u → ∀ r ∈ symbols, u.get? r = none → I ⟨(r, v) :: u.bindings⟩) :
    (keeping I).Leads (bindAll symbols v) t fun _ _ => True :=
  leads_bindEach held fun r mem u held => keeps_bind held (grows u held r mem)

/-- Bindings one after the other, up to the first that is refused. -/
theorem keeps_load {bindings : List (Symbol × Handle)} (held : I t)
    (grows : ∀ u, I u → ∀ b ∈ bindings, u.get? b.1 = none → I ⟨b :: u.bindings⟩) :
    (keeping I).Leads (load bindings) t fun _ _ => True :=
  Leads.forM held fun b mem u held _ => keeps_bind held (grows u held b mem)

end Keeping

/-! ## Tidy tables -/

/-- Every symbol is bound once, and to something that can stand under it. -/
structure Tidy (strict : Prop) (h : Heap) (t : SymbolTable) : Prop where
  distinct : t.symbols.Nodup
  answered : ∀ b ∈ t.bindings, b.1.AnsweredBy strict (h.data b.2)

theorem tidy_empty : empty.Tidy strict h :=
  ⟨List.nodup_nil, fun _ mem => absurd mem List.not_mem_nil⟩

/-- A tidy table stays tidy while executables only gain arities. -/
theorem Tidy.lasts (tidy : t.Tidy strict h) (gone : (Heap.lasting strict).goes h h') :
    t.Tidy strict h' :=
  ⟨tidy.distinct, fun b mem => (tidy.answered b mem).lasts (gone b.2).lasts⟩

/-- One more binding of a free symbol that its value answers to. -/
theorem Tidy.cons (tidy : t.Tidy strict h) (free : t.get? r = none)
    (answered : r.AnsweredBy strict (h.data v)) : Tidy strict h ⟨(r, v) :: t.bindings⟩ := by
  refine ⟨List.nodup_cons.mpr ⟨get?_eq_none_iff.mp free, tidy.distinct⟩, ?_⟩
  intro b mem
  obtain rfl | mem := List.mem_cons.mp mem
  · exact answered
  · exact tidy.answered b mem

/-- A value answers to the symbols that it is bound under. -/
theorem answered_symbolsOf {name : String} {d : Data Handle} (mem : r ∈ symbolsOf name d) :
    r.AnsweredBy strict d := by
  unfold symbolsOf at mem
  split at mem
  next e =>
    obtain ⟨arity, inside, rfl⟩ := List.mem_map.mp mem
    exact ⟨rfl, fun _ => inside⟩
  · obtain rfl := List.mem_singleton.mp mem
    trivial

/-- A tidy table stays tidy when a symbol is bound to a value that answers to it. -/
theorem Tidy.bind (tidy : t.Tidy strict h) (answered : r.AnsweredBy strict (h.data v)) :
    (endState (bind r v) t).Tidy strict h :=
  (keeps_bind tidy fun free => tidy.cons free answered).atEnd.1

/-- The symbols of a value are those that it answers to. -/
theorem Tidy.bindAll {name : String} (tidy : t.Tidy strict h) :
    (endState (bindAll (symbolsOf name (h.data v)) v) t).Tidy strict h :=
  (keeps_bindAll tidy fun _ tidy _ mem free => tidy.cons free (answered_symbolsOf mem)).atEnd.1

/-- Bindings that are answered may be loaded. -/
theorem Tidy.load {bindings : List (Symbol × Handle)} (tidy : t.Tidy strict h)
    (answered : ∀ b ∈ bindings, b.1.AnsweredBy strict (h.data b.2)) :
    (endState (load bindings) t).Tidy strict h :=
  (keeps_load tidy fun _ tidy b mem free => tidy.cons free (answered b mem)).atEnd.1

/-! ## Clones of tables -/

/-- The listing of a table leaves nothing out. -/
theorem perm_ordered (t : SymbolTable) : t.ordered.Perm t.bindings := List.mergeSort_perm _ _

/-- The same bindings in order. -/
theorem Tidy.ordered (tidy : t.Tidy strict h) : Tidy strict h ⟨t.ordered⟩ where
  distinct := ((perm_ordered t).map _).nodup_iff.mpr tidy.distinct
  answered b mem := tidy.answered b ((perm_ordered t).mem_iff.mp mem)

/-- **Clones of a table are tidy**: they have the same symbols, and a clone of an executable has its
arities. -/
theorem Tidy.cloned {kind : CloneKind} (tidy : t.Tidy strict h) :
    (Heap.lasting strict).Leads (t.cloned kind) h fun bs h' => Tidy strict h' ⟨bs⟩ := by
  cases kind with
  | minimal => exact .pure trivial tidy.ordered
  | shallow => exact .pure trivial tidy.ordered
  | deep =>
    have clones : (Heap.lasting strict).Yields (t.cloned .deep) h fun bs h' =>
        List.Forall₂ (fun b c => b.1 = c.1 ∧
          (h.data b.2).Lasts strict (h'.data c.2)) t.ordered bs :=
      Data.mapM_pairs_yields (C := Heap.lasting strict) (f := HeapM.cloneWith .deep)
        (M := fun v c h' => (h.data v).Lasts strict (h'.data c))
        (fun _ _ _ _ _ lasts gone => lasts.trans (gone _).lasts) trivial
        fun b _ h' _ gone => (Heap.lasts_clone b.2 h').weaken fun _ _ _ _ lasts =>
          (gone b.2).lasts.trans lasts
    refine clones.leads.weaken fun bs h' _ _ each => ⟨?_, ?_⟩
    · have same : t.ordered.map (·.1) = bs.map (·.1) :=
        Data.map_eq_of_forall₂ (fun _ _ pair => pair.1) each
      rw [symbols, ← same]
      exact tidy.ordered.distinct
    · intro c mem
      obtain ⟨b, inside, same, lasts⟩ := Data.exists_of_forall₂ each mem
      rw [← same]
      exact (tidy.ordered.answered b inside).lasts lasts

/-- **Clones of tidy tables** are tidy: copies have the arities of what they are copies of. -/
theorem Tidy.duplicate {kind : CloneKind} (tidy : t.Tidy strict h) :
    (Heap.lasting strict).Leads (t.duplicate kind) h fun u h' => u.Tidy strict h' :=
  tidy.cloned.bind fun _ _ _ _ tidy => .pure trivial tidy

end SymbolTable

/-! ## Stacks -/

namespace Stack

variable {strict : Prop} {h h' : Heap} {k : Stack}

/-- The frames are tidy, and there are no more of them than the limit allows and than there have
been. -/
structure Tidy (strict : Prop) (h : Heap) (k : Stack) : Prop where
  frames : ∀ f ∈ k.frames, f.Tidy strict h
  bounded : 0 < k.limit → k.depth ≤ k.limit
  attained : k.depth ≤ k.attained

theorem tidy_empty (limit : Nat) : (empty limit).Tidy strict h where
  frames _ mem := absurd mem List.not_mem_nil
  bounded _ := Nat.zero_le _
  attained := Nat.zero_le _

/-- So does a tidy stack. -/
theorem Tidy.lasts (tidy : k.Tidy strict h) (gone : (Heap.lasting strict).goes h h') :
    k.Tidy strict h' :=
  { tidy with frames := fun f mem => (tidy.frames f mem).lasts gone }

/-- Some of the frames of a tidy stack. -/
theorem Tidy.sublist {frames : List SymbolTable} (tidy : k.Tidy strict h)
    (some : frames.Sublist k.frames) : { k with frames := frames }.Tidy strict h where
  frames f mem := tidy.frames f (some.subset mem)
  bounded positive := some.length_le.trans (tidy.bounded positive)
  attained := some.length_le.trans tidy.attained

theorem Tidy.pop (tidy : k.Tidy strict h) : k.pop.Tidy strict h :=
  tidy.sublist (List.tail_sublist _)

/-- A stack that is cut down has fewer frames, the same ones. -/
theorem Tidy.unwind (tidy : k.Tidy strict h) (depth : Nat) : (k.unwind depth).Tidy strict h :=
  tidy.sublist (List.drop_sublist _ _)

/-- A stack takes one more frame if it is below its limit, or has none. -/
theorem push_of_room {frame : SymbolTable} (room : 0 < k.limit → k.depth < k.limit) :
    push frame k =
      .ok () { k with frames := frame :: k.frames, attained := max k.attained (k.depth + 1) } := by
  have notFull : ¬ k.isFull = true := by
    simp only [isFull, Bool.and_eq_true, decide_eq_true_eq]
    omega
  simp only [push, notFull, Bool.false_eq_true, if_false]

/-- A frame is refused, or put on top. -/
theorem Tidy.push {frame : SymbolTable} (tidy : k.Tidy strict h) (top : frame.Tidy strict h) :
    (endState (push frame) k).Tidy strict h := by
  by_cases full : k.isFull
  · rw [endState, push_of_isFull full]
    exact tidy
  · have run : Stack.push frame k = .ok ()
        { k with frames := frame :: k.frames, attained := max k.attained (k.depth + 1) } := by
      simp only [Stack.push, full, Bool.false_eq_true, if_false]
    rw [endState, run]
    refine ⟨?_, fun positive => ?_, Nat.le_max_right _ _⟩
    · intro f mem
      obtain rfl | mem := List.mem_cons.mp mem
      · exact top
      · exact tidy.frames f mem
    · change 0 < k.limit at positive
      have room : ¬ k.limit < k.depth + 1 := fun less => full (by simp [isFull, less, positive])
      exact Nat.le_of_not_lt room

end Stack

/-! ## Scopes -/

namespace Scope

variable {strict : Prop} {h h' : Heap} {s : Scope} {v : Handle}

/-- The base table and the stack are tidy. -/
structure Tidy (strict : Prop) (h : Heap) (s : Scope) : Prop where
  base : s.base.Tidy strict h
  stack : s.stack.Tidy strict h

/-- What is found as an overload is an executable. -/
theorem Tidy.lookupOverload {key : String} {arity : Nat} (tidy : s.Tidy strict h)
    (run : s.lookupOverload key arity = .ok v) :
    (h.data v).kind = .executable ∧ (strict → arity ∈ (h.data v).arities) := by
  unfold Scope.lookupOverload at run
  split at run
  next w found =>
    cases run
    obtain ⟨t, mem, found⟩ := List.exists_of_findSome?_eq_some found
    have table : t.Tidy strict h := forall_searchOrder tidy.base tidy.stack.frames key t mem
    exact table.answered (_, v) (SymbolTable.mem_of_get? found)
  · cases run

theorem endState_onBase (step : TableM Unit) (s : Scope) :
    endState (onBase step) s = { s with base := endState step s.base } := by
  cases ends : step s.base <;> simp only [endState, onBase, ends]

theorem endState_onStack (step : StackM Unit) (s : Scope) :
    endState (onStack step) s = { s with stack := endState step s.stack } := by
  cases ends : step s.stack <;> simp only [endState, onStack, ends]

/-- Without frames the innermost table is the base table. -/
theorem endState_onInnermost_nil (step : TableM Unit) (none : s.stack.frames = []) :
    endState (onInnermost step) s = { s with base := endState step s.base } := by
  rw [← endState_onBase]
  simp only [endState, onInnermost, none]

theorem endState_onInnermost_cons (step : TableM Unit) {f : SymbolTable} {fs : List SymbolTable}
    (some : s.stack.frames = f :: fs) :
    endState (onInnermost step) s =
      { s with stack := { s.stack with frames := endState step f :: fs } } := by
  cases ends : step f <;> simp only [endState, onInnermost, some, ends]

/-- A step over the table that a key is bound in. -/
theorem Tidy.onTarget {key : String} {step : String → TableM Unit} (tidy : s.Tidy strict h)
    (steps : ∀ (name : String) (t : SymbolTable), t.Tidy strict h →
      (endState (step name) t).Tidy strict h) : (endState (onTarget key step) s).Tidy strict h := by
  unfold Scope.onTarget
  split
  next name _ =>
    rw [endState_onBase]
    exact ⟨steps name _ tidy.base, tidy.stack⟩
  next name _ =>
    cases shape : s.stack.frames with
    | nil =>
      rw [endState_onInnermost_nil _ shape]
      exact ⟨steps name _ tidy.base, tidy.stack⟩
    | cons f fs =>
      rw [endState_onInnermost_cons _ shape]
      have depth : s.stack.depth = fs.length + 1 := by rw [Stack.depth, shape, List.length_cons]
      refine ⟨tidy.base, ?_, ?_, ?_⟩
      · intro g mem
        obtain rfl | mem := List.mem_cons.mp mem
        · exact steps name f (tidy.stack.frames f (by simp [shape]))
        · exact tidy.stack.frames g (by simp [shape, mem])
      · intro positive
        show fs.length + 1 ≤ s.stack.limit
        rw [← depth]
        exact tidy.stack.bounded positive
      · show fs.length + 1 ≤ s.stack.attained
        rw [← depth]
        exact tidy.stack.attained

/-- A scope stays tidy when a value is bound under its symbols. -/
theorem Tidy.insert {key : String} (tidy : s.Tidy strict h) :
    (endState (insert key v (h.data v)) s).Tidy strict h :=
  tidy.onTarget fun _ _ tidy => tidy.bindAll

theorem Tidy.insertPlain {key : String} (tidy : s.Tidy strict h) :
    (endState (insertPlain key v) s).Tidy strict h :=
  tidy.onTarget fun _ _ tidy => tidy.bind trivial

theorem Tidy.push {frame : SymbolTable} (tidy : s.Tidy strict h) (top : frame.Tidy strict h) :
    (endState (push frame) s).Tidy strict h := by
  rw [Scope.push, endState_onStack]
  exact ⟨tidy.base, tidy.stack.push top⟩

theorem Tidy.clear (tidy : s.Tidy strict h) : s.clear.Tidy strict h :=
  ⟨SymbolTable.tidy_empty, tidy.stack.sublist (List.nil_sublist _)⟩

end Scope

end ScriptHost
