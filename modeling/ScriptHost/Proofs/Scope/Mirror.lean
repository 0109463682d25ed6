import ScriptHost.Proofs.Scope.Tidy

/-!
# Scopes that answer alike

`SymbolTable.Mirrors M t u` says that the table `u` binds the symbols of `t`, in whatever order,
each to a value that corresponds by `M` to that of `t`. A scope whose tables mirror those of another
one `Resembles` it: it has the same figures, and gives corresponding answers to all questions and
the same faults. So what has to be known of a clone is said table by table.
-/

set_option autoImplicit false

namespace ScriptHost

namespace SymbolTable

variable {M N : Handle → Handle → Prop} {t u : SymbolTable} {r : Symbol}

/-! ## Tables -/

/-- A table that binds the symbols of another one to values that correspond. -/
structure Mirrors (M : Handle → Handle → Prop) (t u : SymbolTable) : Prop where
  symbols : u.symbols.Perm t.symbols
  values : ∀ r v w, t.get? r = some v → u.get? r = some w → M v w

/-- Values that correspond in one way may correspond in another. -/
theorem Mirrors.mono (mirrors : t.Mirrors M u)
    (weaker : ∀ v w, (∃ r, t.get? r = some v) → M v w → N v w) : t.Mirrors N u where
  symbols := mirrors.symbols
  values r v w found there := weaker v w ⟨r, found⟩ (mirrors.values r v w found there)

theorem Mirrors.get? (mirrors : t.Mirrors M u) (r : Symbol) :
    Option.Rel M (t.get? r) (u.get? r) := by
  have both : u.get? r = none ↔ t.get? r = none := by
    rw [get?_eq_none_iff, get?_eq_none_iff, mirrors.symbols.mem_iff]
  cases found : t.get? r with
  | none =>
    rw [both.mpr found]
    exact .none
  | some v =>
    cases there : u.get? r with
    | none =>
      rw [both.mp there] at found
      cases found
    | some w => exact .some (mirrors.values r v w found there)

/-- What holds of all values that correspond to some value holds of all that the table binds. -/
theorem Mirrors.within {V : Handle → Prop} (mirrors : t.Mirrors M u) (distinct : t.symbols.Nodup)
    (all : ∀ v w, M v w → V w) : u.Within V := by
  intro b mem
  have bound : u.get? b.1 = some b.2 := get?_of_mem (mirrors.symbols.nodup_iff.mpr distinct) mem
  have found := mirrors.get? b.1
  rw [bound] at found
  generalize t.get? b.1 = x at found
  cases found with
  | some corresponds => exact all _ _ corresponds

theorem Mirrors.length (mirrors : t.Mirrors M u) : u.length = t.length := by
  simpa only [SymbolTable.length, SymbolTable.symbols, List.length_map]
    using mirrors.symbols.length_eq

theorem notAfter_trans (a b c : String) (first : decide (a ≤ b) = true)
    (second : decide (b ≤ c) = true) : decide (a ≤ c) = true := by
  simp only [decide_eq_true_eq] at first second ⊢
  exact le_trans first second

theorem notAfter_total (a b : String) : (decide (a ≤ b) || decide (b ≤ a)) = true := by
  simp only [Bool.or_eq_true, decide_eq_true_eq]
  exact le_total a b

/-- A listing is sorted. -/
theorem sorted_keys (t : SymbolTable) : t.keys.Pairwise fun a b => decide (a ≤ b) = true :=
  List.pairwise_mergeSort notAfter_trans notAfter_total _

/-- There is one way to sort keys. -/
theorem eq_of_sorted {k l : List String} (same : k.Perm l)
    (left : k.Pairwise fun a b => decide (a ≤ b) = true)
    (right : l.Pairwise fun a b => decide (a ≤ b) = true) : k = l := by
  apply same.eq_of_pairwise _ left right
  intro a b _ _ first second
  simp only [decide_eq_true_eq] at first second
  exact le_antisymm first second

theorem perm_keys (t : SymbolTable) : t.keys.Perm (t.symbols.map Symbol.key) := by
  rw [symbols, List.map_map]
  exact List.mergeSort_perm _ _

/-- A listing does not depend on the order of the bindings. -/
theorem Mirrors.keys (mirrors : t.Mirrors M u) : u.keys = t.keys := by
  have listed : u.keys.Perm t.keys :=
    (perm_keys u).trans ((mirrors.symbols.map Symbol.key).trans (perm_keys t).symm)
  exact eq_of_sorted listed (sorted_keys u) (sorted_keys t)

/-- A table made of the bindings of another one, one by one. -/
theorem mirrors_of_forall₂ {bs cs : List (Symbol × Handle)} (distinct : t.symbols.Nodup)
    (source : bs.Perm t.bindings) (each : List.Forall₂ (fun b c => b.1 = c.1 ∧ M b.2 c.2) bs cs)
    (target : u.bindings.Perm cs) : t.Mirrors M u where
  symbols := by
    have same : bs.map (·.1) = cs.map (·.1) := Data.map_eq_of_forall₂ (fun _ _ pair => pair.1) each
    have there : u.symbols.Perm (cs.map (·.1)) := target.map _
    rw [← same] at there
    exact there.trans (source.map _)
  values r v w found there := by
    obtain ⟨b, inside, same, corresponds⟩ :=
      Data.exists_of_forall₂ each (target.mem_iff.mp (mem_of_get? there))
    have known : t.get? b.1 = some b.2 := get?_of_mem distinct (source.mem_iff.mp inside)
    rw [same, found] at known
    cases known
    exact corresponds

/-- Bindings of different symbols, none of which is taken, are all loaded. -/
theorem run_load {bs : List (Symbol × Handle)} (distinct : (bs.map (·.1) ++ t.symbols).Nodup) :
    load bs t = .ok () ⟨bs.reverse ++ t.bindings⟩ := by
  induction bs generalizing t with
  | nil => rfl
  | cons b bs ih =>
    obtain ⟨r, v⟩ := b
    obtain ⟨first, rest⟩ := List.nodup_cons.mp distinct
    have free : t.get? r = none :=
      get?_eq_none_iff.mpr fun mem => first (List.mem_append_right _ mem)
    have run : bind r v t = .ok () ⟨(r, v) :: t.bindings⟩ := by simp only [bind, free]
    have shifted : (bs.map (·.1) ++ symbols ⟨(r, v) :: t.bindings⟩).Nodup := by
      refine (List.perm_middle.nodup_iff).mpr ?_
      exact distinct
    show (bind r v >>= fun _ => load bs) t = _
    simp only [Bind.bind, EStateM.bind, run, ih shifted]
    simp

/-- The first value under a symbol in tables one after the other. -/
theorem findSome_mirrors {ts us : List SymbolTable} (tables : List.Forall₂ (Mirrors M) ts us)
    (r : Symbol) : Option.Rel M (ts.findSome? (·.get? r)) (us.findSome? (·.get? r)) := by
  induction tables with
  | nil => exact .none
  | @cons t u _ _ first _ ih =>
    simp only [List.findSome?_cons]
    have found := first.get? r
    generalize t.get? r = x, u.get? r = y at found ⊢
    cases found with
    | none => exact ih
    | some corresponds => exact .some corresponds

end SymbolTable

/-! ## Scopes -/

/-- Two answers that correspond: two values, or one fault. -/
inductive SameAnswer (M : Handle → Handle → Prop) :
    Except Fault Handle → Except Fault Handle → Prop where
  | found {v w : Handle} (corresponds : M v w) : SameAnswer M (.ok v) (.ok w)
  | refused (f : Fault) : SameAnswer M (.error f) (.error f)

namespace Scope

variable {M : Handle → Handle → Prop} {s t : Scope}

/-- A scope with the figures of another one, that gives corresponding answers. -/
structure Resembles (M : Handle → Handle → Prop) (s t : Scope) : Prop where
  depth : t.stack.depth = s.stack.depth
  limit : t.stack.limit = s.stack.limit
  bindingCount : t.bindingCount = s.bindingCount
  baseKeys : t.base.keys = s.base.keys
  lookup : ∀ key, SameAnswer M (s.lookup key) (t.lookup key)
  lookupOverload : ∀ name arity,
    SameAnswer M (s.lookupOverload name arity) (t.lookupOverload name arity)
  existence : ∀ key, (t.find? key).isSome = (s.find? key).isSome

/-- A scope whose tables mirror those of another one. -/
structure Mirrors (M : Handle → Handle → Prop) (s t : Scope) : Prop where
  base : s.base.Mirrors M t.base
  frames : List.Forall₂ (SymbolTable.Mirrors M) s.stack.frames t.stack.frames
  limit : t.stack.limit = s.stack.limit

namespace Mirrors

variable (mirrors : s.Mirrors M t)

include mirrors

theorem within {V : Handle → Prop} (base : s.base.symbols.Nodup)
    (frames : ∀ f ∈ s.stack.frames, f.symbols.Nodup) (all : ∀ v w, M v w → V w) : t.Within V := by
  refine ⟨mirrors.base.within base all, fun f mem => ?_⟩
  obtain ⟨g, inside, frame⟩ := Data.exists_of_forall₂ mirrors.frames mem
  exact frame.within (frames g inside) all

theorem searchOrder (key : String) : (t.searchOrder key).2 = (s.searchOrder key).2 ∧
    List.Forall₂ (SymbolTable.Mirrors M) (s.searchOrder key).1 (t.searchOrder key).1 := by
  unfold Scope.searchOrder
  split
  · exact ⟨rfl, .cons mirrors.base .nil⟩
  · exact ⟨rfl, List.rel_append mirrors.frames (.cons mirrors.base .nil)⟩

theorem find? (key : String) : Option.Rel M (s.find? key) (t.find? key) := by
  obtain ⟨name, tables⟩ := mirrors.searchOrder key
  unfold Scope.find?
  dsimp only
  rw [name]
  have plain := SymbolTable.findSome_mirrors tables (.plain (s.searchOrder key).2)
  generalize (s.searchOrder key).1.findSome? (·.get? (.plain (s.searchOrder key).2)) = x,
    (t.searchOrder key).1.findSome? (·.get? (.plain (s.searchOrder key).2)) = y at plain ⊢
  cases plain with
  | some corresponds => exact .some corresponds
  | none =>
    dsimp only
    split
    · exact SymbolTable.findSome_mirrors tables _
    · exact .none

theorem findOverload? (key : String) (arity : Nat) :
    Option.Rel M (s.findOverload? key arity) (t.findOverload? key arity) := by
  obtain ⟨name, tables⟩ := mirrors.searchOrder key
  unfold Scope.findOverload?
  dsimp only
  rw [name]
  exact SymbolTable.findSome_mirrors tables _

theorem bindingCount : t.bindingCount = s.bindingCount := by
  have lengths : s.stack.frames.map SymbolTable.length = t.stack.frames.map SymbolTable.length :=
    Data.map_eq_of_forall₂ (fun _ _ mirrors => mirrors.length.symm) mirrors.frames
  have sum : ∀ (frames : List SymbolTable) (n : Nat),
      frames.foldl (fun n frame => n + frame.length) n =
        (frames.map SymbolTable.length).foldl (· + ·) n :=
    fun frames n => by rw [List.foldl_map]
  rw [Scope.bindingCount, Scope.bindingCount, sum, sum, lengths, mirrors.base.length]

/-- **A scope whose tables mirror those of another one resembles it.** -/
theorem resembles : s.Resembles M t where
  depth := mirrors.frames.length_eq.symm
  limit := mirrors.limit
  bindingCount := mirrors.bindingCount
  baseKeys := mirrors.base.keys
  lookup key := by
    unfold Scope.lookup
    have found := mirrors.find? key
    generalize s.find? key = x, t.find? key = y at found ⊢
    cases found with
    | some corresponds => exact .found corresponds
    | none => exact .refused _
  lookupOverload name arity := by
    unfold Scope.lookupOverload
    have found := mirrors.findOverload? name arity
    generalize s.findOverload? name arity = x, t.findOverload? name arity = y at found ⊢
    cases found with
    | some corresponds => exact .found corresponds
    | none => exact .refused _
  existence key := by
    have found := mirrors.find? key
    generalize s.find? key = x, t.find? key = y at found ⊢
    cases found with
    | some corresponds => rfl
    | none => rfl

end Mirrors

end Scope

end ScriptHost
