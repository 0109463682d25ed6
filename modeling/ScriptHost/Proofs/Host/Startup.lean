import ScriptHost.Proofs.Host.Run
import ScriptHost.Proofs.Host.Turn

/-!
# The start of a host

A host starts with the library in its base table: nothing of it fails to be installed.
`Library.symbols` lists what is bound, in the order in which it is bound; `Library.Stocked bound`
says that the base table binds just the symbols `bound`, each to a locked value, and the symbols of
routines to values that provide them. Every step of the installation adds one symbol
(`Host.start_stocked`), and none touches the frames but the last (`Host.start_pushed`).
-/

set_option autoImplicit false

namespace ScriptHost

open HostM Course

/-! ## Versions -/

namespace Version

variable {h : Heap} {v : Handle} {names : List String} {name : String}

/-- A structure with integers under these names that can be assigned to. -/
def Fillable (h : Heap) (v : Handle) (names : List String) : Prop :=
  ∃ r, h.data v = .record r ∧
    ∀ name ∈ names, ∃ m i, r.get name = .ok m ∧ h.cell m = ⟨.leaf (.integer i none), false⟩

/-- An integer is assigned to an integer that is not locked. -/
theorem run_assign {target source : Handle} {i j : Integer}
    (held : h.cell target = ⟨.leaf (.integer j none), false⟩)
    (given : h.data source = .leaf (.integer i none)) :
    ∃ h' k, HeapM.assign target source h = .ok () h' ∧
      h'.cell target = ⟨.leaf (.integer k none), false⟩ ∧ ∀ w, w ≠ target →
      h'.cell w = h.cell w := by
  have unlocked : h.isLocked target = false := by rw [Heap.isLocked, held]
  by_cases same : target = source
  · obtain ⟨part, opened⟩ := HeapM.exists_assignOnce h target source
    refine ⟨h, j, ?_, held, fun _ _ => rfl⟩
    rw [opened, HeapM.assignOnce, HeapM.bind_of_ok (HeapM.writable_of_unlocked unlocked),
      if_pos same]
    rfl
  · refine ⟨h.setCell target ⟨.leaf (.integer i none), false⟩, i,
      HeapM.run_assignLeaf held (by simp) same ?_, ?_, fun w other => h.cell_setCell_ne _ other⟩
    · rw [given]
      rfl
    · exact h.cell_setCell_self target _ (Heap.made_of_unlocked unlocked)

/-- An integer is assigned to a member. -/
theorem run_setNumber (fillable : Fillable h v names) (name : String) (mem : name ∈ names)
    (i : Integer) : ∃ h', setNumber v name i h = .ok () h' ∧ Fillable h' v names := by
  obtain ⟨r, held, members⟩ := fillable
  obtain ⟨m, j, got, cell⟩ := members name mem
  have old : ∀ {w : Handle} {k : Integer}, h.cell w = ⟨.leaf (.integer k none), false⟩ →
      (h.push ⟨.leaf (.integer i none), false⟩).cell w = ⟨.leaf (.integer k none), false⟩ := by
    intro w k cell
    rw [Heap.cell_push_of_made (Heap.made_of_unlocked (by rw [Heap.isLocked, cell])), cell]
  have given : (h.push ⟨.leaf (.integer i none), false⟩).data ⟨h.size⟩ =
      .leaf (.integer i none) := by simp [Heap.data]
  obtain ⟨h', k, assigned, filled, others⟩ := run_assign (old cell) given
  refine ⟨h', ?_, r, ?_, fun other mem => ?_⟩
  · have member : HeapM.member v name h = .ok m h := by
      simp only [HeapM.member, HeapM.dataOf, HeapM.look, HeapM.of, HeapM.ask, Bind.bind,
        EStateM.bind, held, got]
    have new : HeapM.newLeaf (.integer i none) h =
        .ok ⟨h.size⟩ (h.push ⟨.leaf (.integer i none), false⟩) := rfl
    rw [setNumber, HeapM.bind_of_ok member, HeapM.bind_of_ok new, assigned]
  · have other : v ≠ m := by
      rintro rfl
      rw [Heap.data, cell] at held
      cases held
    have made : h.Made v := Heap.made_of_kind (by rw [Heap.kind, held]; simp [Data.kind])
    rw [Heap.data_congr (others v other), Heap.data_congr (Heap.cell_push_of_made made), held]
  · obtain ⟨m', j', got, cell⟩ := members other mem
    by_cases same : m' = m
    · exact ⟨m', k, got, same ▸ filled⟩
    · exact ⟨m', j', got, by rw [others m' same, old cell]⟩

/-- A declared version can be filled. -/
theorem run_declare (h : Heap) :
    ∃ v h', HeapM.declare type h = .ok v h' ∧ Fillable h' v ["Major", "Minor", "Patch"] := by
  refine ⟨_, _, rfl, ?_⟩
  simp only [Fillable, Heap.data, Heap.cell_push_new]
  refine ⟨_, rfl, fun name mem => ?_⟩
  simp only [List.mem_cons, List.not_mem_nil, or_false] at mem
  rcases mem with rfl | rfl | rfl
  · refine ⟨_, 0, rfl, ?_⟩
    rw [Heap.cell_push_of_made, Heap.cell_push_of_made, Heap.cell_push_of_made, Heap.cell_push_new]
    all_goals simp only [Heap.Made, Heap.size_push]; omega
  · refine ⟨_, 0, rfl, ?_⟩
    rw [Heap.cell_push_of_made, Heap.cell_push_of_made, Heap.cell_push_new]
    all_goals simp only [Heap.Made, Heap.size_push]; omega
  · refine ⟨_, 0, rfl, ?_⟩
    rw [Heap.cell_push_of_made, Heap.cell_push_new]
    simp only [Heap.Made, Heap.size_push]; omega

/-- **Versions can be made** in any heap. -/
theorem run_make (numbers : Integer × Integer × Integer) (h : Heap) :
    ∃ v h', make numbers h = .ok v h' := by
  obtain ⟨major, minor, patch⟩ := numbers
  obtain ⟨v, h₀, declared, fillable⟩ := run_declare h
  obtain ⟨h₁, first, fillable⟩ := run_setNumber fillable "Major" (by simp) major
  obtain ⟨h₂, second, fillable⟩ := run_setNumber fillable "Minor" (by simp) minor
  obtain ⟨h₃, third, -⟩ := run_setNumber fillable "Patch" (by simp) patch
  refine ⟨v, h₃, ?_⟩
  rw [make, HeapM.bind_of_ok declared, HeapM.bind_of_ok first, HeapM.bind_of_ok second,
    HeapM.bind_of_ok third]
  rfl

end Version

/-! ## Marked keys -/

/-- A mark is read off again. -/
@[simp] theorem unmark_marked (name : String) : unmark (marked name) = (true, name) := by
  simp [unmark, marked]

namespace Scope

variable {s : Scope} {name : String} {v : Handle}

/-- A marked key is looked up in the base table. -/
theorem lookup_marked (found : s.base.get? (.plain name) = some v) :
    s.lookup (marked name) = .ok v := by
  have only : s.find? (marked name) = some v := by simp [find?, searchOrder, found]
  simp only [lookup, only]

theorem lookupOverload_marked {arity : Nat} (found : s.base.get? (.overload name arity) = some v) :
    s.lookupOverload (marked name) arity = .ok v := by
  have only : s.findOverload? (marked name) arity = some v := by
    simp [findOverload?, searchOrder, found]
  simp only [lookupOverload, only]

theorem insertPlain_marked :
    insertPlain (marked name) v = onBase (SymbolTable.bind (.plain name) v) := by
  simp only [insertPlain, onTarget, unmark_marked]

/-- A marked key is bound in the base table, under all symbols of the value. -/
theorem insert_marked {d : Data Handle} :
    insert (marked name) v d = onBase (SymbolTable.bindAll (SymbolTable.symbolsOf name d) v) := by
  simp only [insert, onTarget, unmark_marked]

end Scope

/-- One symbol is bound in one step: the check before it and the one in it are the same. -/
theorem SymbolTable.bindAll_singleton (r : Symbol) (v : Handle) : bindAll [r] v = bind r v := by
  funext t
  cases found : t.get? r <;>
    simp [bindAll, checkFree, bind, Bind.bind, EStateM.bind, found, List.forM, pure, EStateM.pure]

/-! ## The library -/

/-- An executable that has a routine of the library among its overloads. -/
def Data.Provides {ρ : Type} (d : Data ρ) (r : Routine) : Prop :=
  ∃ e c, d = .leaf (.executable e) ∧ e.get? r.signature.2.length = some c ∧
    c.params = r.signature.2 ∧ c.body = .routine r

namespace Library

/-- The plain names that the library binds. -/
def plainNames : List String := constants.map (·.1) ++ aliases.map (·.1) ++ ["VERSION"]

/-- The symbol of a routine. -/
def symbolOf (r : Routine) : Symbol := .overload r.signature.1 r.signature.2.length

/-- The symbols of names with something to bind. -/
def plains {α : Type} (named : List (String × α)) : List Symbol := named.map fun p => .plain p.1

/-- The symbols that the library binds, in the order in which it does. -/
def symbols : List Symbol :=
  plains constants ++ Routine.all.map symbolOf ++ plains aliases ++ [.plain "VERSION"]

/-- No symbol is bound twice. -/
theorem symbols_nodup : symbols.Nodup := by decide +kernel

/-- What has another name is a routine of two parameters. -/
theorem symbolOf_aliases : ∀ p ∈ aliases, Symbol.overload p.2 2 ∈ Routine.all.map symbolOf := by
  decide +kernel

/-- The routine that a symbol of the library stands for, by its own name or by another one. -/
def meaning : Symbol → Option Routine
  | .overload name arity => Routine.all.find? (symbolOf · = .overload name arity)
  | .plain name =>
    (aliases.lookup name).bind fun target => Routine.all.find? (symbolOf · = .overload target 2)

/-- No constant stands for a routine. -/
theorem meaning_constants : ∀ p ∈ constants, meaning (.plain p.1) = none := by decide +kernel

/-- Every routine is found under its own symbol. -/
theorem meaning_symbolOf : ∀ r ∈ Routine.all, meaning (symbolOf r) = some r := by decide +kernel

/-- A second name stands for the same routine as the first. -/
theorem meaning_aliases : ∀ p ∈ aliases, meaning (.plain p.1) = meaning (.overload p.2 2) := by
  decide +kernel

/-- A value that can stand under a symbol: if the symbol means a routine, the value provides it. -/
def Serves (h : Heap) (symbol : Symbol) (v : Handle) : Prop :=
  ∀ r ∈ meaning symbol, (h.data v).Provides r

theorem serves_of_none {h : Heap} {symbol : Symbol} {v : Handle} (none : meaning symbol = .none) :
    Serves h symbol v := by
  intro r means
  rw [none] at means
  cases means

/-- No routine names a parameter twice. -/
theorem params_distinct :
    ∀ r ∈ Routine.all, Callable.repeated? [] (r.signature.2.map (·.name)) = none := by
  decide +kernel

/-- The base table of a host binds some symbols, in this order, to locked values that provide what
the symbols mean. -/
structure Stocked (bound : List Symbol) (s : Host) : Prop where
  owning : s.Owning False fun _ => True
  inside : s.env.base < s.bases.size
  symbols : s.scope.base.symbols.reverse = bound
  locked : ∀ b ∈ s.scope.base.bindings, s.heap.isLocked b.2 = true
  serves : ∀ b ∈ s.scope.base.bindings, Serves s.heap b.1 b.2

variable {bound : List Symbol} {s : Host} {r : Symbol} {v : Handle}

/-- What a stocked host binds is there. -/
theorem Stocked.get? (stocked : Stocked bound s) (mem : r ∈ bound) :
    ∃ v, s.scope.base.get? r = some v ∧ s.heap.Made v ∧ s.heap.isLocked v = true ∧
      Serves s.heap r v := by
  cases found : s.scope.base.get? r with
  | none =>
    rw [← stocked.symbols, List.mem_reverse] at mem
    exact absurd mem (SymbolTable.get?_eq_none_iff.mp found)
  | some v =>
    have bound := SymbolTable.mem_of_get? found
    exact ⟨v, rfl, (stocked.owning.within.bases _ _ bound).1, stocked.locked _ bound,
      stocked.serves _ bound⟩

/-- A step over the heap takes nothing from a stocked host. -/
theorem Stocked.onHeap {α : Type} {m : HeapM α} {given : List Handle} {yields : α → List Handle}
    {a : α} {h : Heap} (sound : m.Sound given yields) (stocked : Stocked bound s)
    (used : ∀ v ∈ given, s.heap.Made v) (run : m s.heap = .ok a h) :
    HostM.onHeap m s = .ok a { s with heap := h } ∧ Stocked bound { s with heap := h } ∧
      ∀ v ∈ yields a, h.Made v := by
  have whole : HostM.onHeap m s = .ok a { s with heap := h } := by simp only [HostM.onHeap, run]
  have leads := Host.leads_onHeap sound stocked.owning fun v mem => ⟨used v mem, trivial⟩
  obtain ⟨owning, changes, made⟩ := leads.ok whole
  have same : ∀ b ∈ s.scope.base.bindings, h.cell b.2 = s.heap.cell b.2 := fun b mem =>
    changes.cell_of_locked (stocked.owning.within.bases _ b mem).1 (stocked.locked b mem)
  refine ⟨whole,
    ⟨owning, stocked.inside, stocked.symbols, fun b mem => ?_, fun b mem r means => ?_⟩,
    fun v mem => (made v mem).1⟩
  · rw [Heap.isLocked_congr (same b mem)]
    exact stocked.locked b mem
  · rw [Heap.data_congr (same b mem)]
    exact stocked.serves b mem r means

/-- A symbol that is not bound yet is bound to a locked value. -/
theorem Stocked.bind (stocked : Stocked bound s) (free : r ∉ bound) (made : s.heap.Made v)
    (locked : s.heap.isLocked v = true) (serves : Serves s.heap r v) :
    ∃ t, onScope .host (Scope.onBase (SymbolTable.bind r v)) s = .ok () t ∧
      Stocked (bound ++ [r]) t := by
  have absent : s.scope.base.get? r = none := by
    rw [SymbolTable.get?_eq_none_iff, ← List.mem_reverse, stocked.symbols]
    exact free
  let table : SymbolTable := ⟨(r, v) :: s.scope.base.bindings⟩
  let t : Host := { s with bases := s.bases.setIfInBounds s.env.base table }
  have bind : SymbolTable.bind r v s.scope.base = .ok () table := by
    simp only [SymbolTable.bind, absent, table]
  have inner : Scope.onBase (SymbolTable.bind r v) s.scope = .ok () ⟨table, s.scope.stack⟩ := by
    simp only [Scope.onBase, bind]
  have run : onScope .host (Scope.onBase (SymbolTable.bind r v)) s = .ok () t :=
    Host.run_onScope rfl inner
  have base : t.scope.base = table := by
    show t.base s.env.base = table
    rw [Host.base_setBase, if_pos ⟨rfl, stocked.inside⟩]
  have within : table.Within (s.heap.Owned fun _ => True) := by
    intro b mem
    obtain rfl | mem := List.mem_cons.mp mem
    · exact ⟨made, trivial⟩
    · exact stocked.owning.within.bases _ b mem
  refine ⟨t, run, ⟨stocked.owning.realm, stocked.owning.within.setBase within⟩, ?_, ?_, ?_, ?_⟩
  · simpa [t] using stocked.inside
  · rw [base, ← stocked.symbols]
    simp [SymbolTable.symbols, table]
  · rw [base]
    intro b mem
    obtain rfl | mem := List.mem_cons.mp mem
    · exact locked
    · exact stocked.locked b mem
  · rw [base]
    intro b mem
    obtain rfl | mem := List.mem_cons.mp mem
    · exact serves
    · exact stocked.serves b mem

/-- A step that binds one more symbol. -/
def Adds (r : Symbol) (step : HostM Unit) (bound : List Symbol) (s : Host) : Prop :=
  ∃ t, step s = .ok () t ∧ Stocked (bound ++ [r]) t

/-- A constant that is new to the table takes one more symbol. -/
theorem adds_installConstant {name : String} {l : Leaf} (fits : (Data.leaf l : Data Handle).Fits)
    (stocked : Stocked bound s) (free : .plain name ∉ bound) (none : meaning (.plain name) = none) :
    Adds (.plain name) (installConstant name l) bound s := by
  obtain ⟨run, after, made⟩ := Stocked.onHeap (sound_alloc fits) stocked (by simp) rfl
  have locked : (s.heap.push ⟨.leaf l, true⟩).isLocked ⟨s.heap.size⟩ = true := by
    simp [Heap.isLocked]
  obtain ⟨t, bind, stocked⟩ := after.bind free (made _ (by simp)) locked (serves_of_none none)
  refine ⟨t, ?_, stocked⟩
  rw [installConstant]
  simp only [Bind.bind, EStateM.bind, run]
  rw [bindPlain, Scope.insertPlain_marked]
  exact bind

/-- A value is locked and then bound. -/
theorem Stocked.lock (stocked : Stocked bound s) (made : s.heap.Made v) :
    ∃ h, HostM.onHeap (HeapM.lock v) s = .ok () { s with heap := h } ∧
      Stocked bound { s with heap := h } ∧ h.Made v ∧ h.isLocked v = true ∧
      h.data v = s.heap.data v := by
  obtain ⟨h, run, locks⟩ := Heap.run_lock s.heap v
  obtain ⟨run, after, -⟩ := Stocked.onHeap Heap.sound_lock stocked (by simpa using made) run
  have still : h.Made v := by rw [Heap.Made, locks.size]; exact made
  exact ⟨h, run, after, still, locks.roots v (by simp), locks.data v⟩

/-- A function whose parameters have different names is made. -/
theorem run_newFunction (name : String) {params : List Param} (body : Body)
    (distinct : Callable.repeated? [] (params.map (·.name)) = none) (h : Heap) :
    ∃ h', HeapM.newFunction name params body h = .ok ⟨h.size⟩ h' ∧
      h'.data ⟨h.size⟩ = .leaf (.executable (.single ⟨h.stamps, name, params, body⟩)) := by
  let c : Callable := ⟨h.stamps, name, params, body⟩
  let stamped : Heap := { h with stamps := h.stamps + 1 }
  refine ⟨stamped.push ⟨.leaf (.executable (.single c)), false⟩, ?_, ?_⟩
  · have check : Callable.checkParams params = .ok () := by
      simp only [Callable.checkParams, distinct]
    simp only [HeapM.newFunction, check]
    rfl
  · show (stamped.push _).data ⟨stamped.size⟩ = _
    rw [Heap.data, Heap.cell_push_new]

/-- A function takes the symbol of its name and arity. -/
theorem adds_function {name : String} {params : List Param} {body : Body}
    (stocked : Stocked bound s) (distinct : Callable.repeated? [] (params.map (·.name)) = none)
    (free : .overload name params.length ∉ bound)
    (means : ∀ r ∈ meaning (.overload name params.length), params = r.signature.2 ∧
      body = .routine r) :
    Adds (.overload name params.length) (do
      let v ← HostM.onHeap (HeapM.newFunction name params body)
      HostM.onHeap (HeapM.lock v)
      onScope .host (Scope.insert (marked name) v (← HostM.onHeap (HeapM.dataOf v)))) bound s := by
  obtain ⟨h, new, contents⟩ := run_newFunction name body distinct s.heap
  obtain ⟨make, fresh, made⟩ := Stocked.onHeap Heap.sound_newFunction stocked (by simp) new
  obtain ⟨h', lock, after, still, locked, same⟩ := fresh.lock (made ⟨s.heap.size⟩ (by simp))
  have serves : Serves h' (.overload name params.length) ⟨s.heap.size⟩ := by
    intro r found
    obtain ⟨rfl, rfl⟩ := means r found
    refine ⟨_, ⟨s.heap.stamps, name, r.signature.2, .routine r⟩, same.trans contents, ?_, rfl, rfl⟩
    simp [Executable.get?, Executable.single, Callable.arity]
  obtain ⟨t, bind, stocked⟩ := after.bind free still locked serves
  refine ⟨t, ?_, stocked⟩
  have symbols : SymbolTable.symbolsOf name (h'.data ⟨s.heap.size⟩) =
      [.overload name params.length] := by
    rw [same, contents]
    rfl
  rw [← bind, ← SymbolTable.bindAll_singleton, ← symbols, ← Scope.insert_marked]
  simp only [Bind.bind, EStateM.bind, make, lock]
  rfl

theorem adds_installRoutine {routine : Routine} (mem : routine ∈ Routine.all)
    (stocked : Stocked bound s) (free : symbolOf routine ∉ bound) :
    Adds (symbolOf routine) (installRoutine routine) bound s := by
  refine adds_function stocked (params_distinct routine mem) free fun r means => ?_
  have own : meaning (.overload routine.signature.1 routine.signature.2.length) = some routine :=
    meaning_symbolOf routine mem
  rw [own] at means
  cases means
  exact ⟨rfl, rfl⟩

/-- A second name takes a plain symbol, for a value that is there. -/
theorem adds_installAlias {plain name : String} (stocked : Stocked bound s)
    (named : .overload name 2 ∈ bound) (free : .plain plain ∉ bound)
    (same : meaning (.plain plain) = meaning (.overload name 2)) :
    Adds (.plain plain) (installAlias plain name) bound s := by
  obtain ⟨v, found, made, locked, serves⟩ := stocked.get? named
  rw [Serves, ← same] at serves
  obtain ⟨t, bind, stocked⟩ := stocked.bind free made locked serves
  refine ⟨t, ?_, stocked⟩
  rw [← bind, ← Scope.insertPlain_marked]
  simp only [installAlias, look, of, Bind.bind, EStateM.bind, Scope.lookupOverload_marked found]
  rfl

/-- The version takes a plain symbol. -/
theorem adds_installVersion (stocked : Stocked bound s) (free : .plain "VERSION" ∉ bound) :
    Adds (.plain "VERSION") installVersion bound s := by
  obtain ⟨v, h, run⟩ := Version.run_make Version.current s.heap
  obtain ⟨make, fresh, made⟩ := Stocked.onHeap Heap.sound_makeVersion stocked (by simp) run
  obtain ⟨h', lock, after, still, locked, -⟩ := fresh.lock (made v (by simp))
  have none : meaning (.plain "VERSION") = none := by decide +kernel
  obtain ⟨t, bind, stocked⟩ := after.bind free still locked (serves_of_none none)
  refine ⟨t, ?_, stocked⟩
  rw [← bind, ← Scope.insertPlain_marked]
  simp only [installVersion, Bind.bind, EStateM.bind, make, lock]
  rfl

/-- **Steps for the elements of a list** each bind one more symbol. -/
theorem Stocked.forM {α : Type} {l : List α} {symbol : α → Symbol} {step : α → HostM Unit}
    (stocked : Stocked bound s) (distinct : (bound ++ l.map symbol).Nodup)
    (adds : ∀ a ∈ l, ∀ more t, bound ⊆ more → Stocked more t → symbol a ∉ more →
      Adds (symbol a) (step a) more t) :
    ∃ t, l.forM step s = .ok () t ∧ Stocked (bound ++ l.map symbol) t := by
  induction l generalizing bound s with
  | nil => exact ⟨s, rfl, by simpa using stocked⟩
  | cons a l ih =>
    have shift : bound ++ (a :: l).map symbol = (bound ++ [symbol a]) ++ l.map symbol := by simp
    rw [shift] at distinct ⊢
    have free : symbol a ∉ bound := by
      intro mem
      exact (List.nodup_append.mp (List.nodup_append.mp distinct).1).2.2 _ mem
        _ (List.mem_singleton_self _) rfl
    obtain ⟨t, run, after⟩ := adds a (by simp) bound s (List.Subset.refl bound) stocked free
    obtain ⟨u, rest, stocked⟩ := ih after distinct fun b mem more t sub =>
      adds b (by simp [mem]) more t (List.Subset.trans (List.subset_append_left bound _) sub)
    refine ⟨u, ?_, stocked⟩
    show (step a >>= fun _ => l.forM step) s = .ok () u
    simp only [Bind.bind, EStateM.bind, run, rest]

/-- The parts of a library are installed one after the other. -/
theorem Stocked.install {constants : List (String × Leaf)} {routines : List Routine}
    {aliases : List (String × String)} (stocked : Stocked [] s)
    (fits : ∀ p ∈ constants, (Data.leaf p.2 : Data Handle).Fits)
    (none : ∀ p ∈ constants, meaning (.plain p.1) = none) (known : ∀ r ∈ routines, r ∈ Routine.all)
    (targets : ∀ p ∈ aliases, Symbol.overload p.2 2 ∈ routines.map symbolOf)
    (same : ∀ p ∈ aliases, meaning (.plain p.1) = meaning (.overload p.2 2))
    (distinct : (plains constants ++ routines.map symbolOf ++ plains aliases ++
      [Symbol.plain "VERSION"]).Nodup) :
    ∃ t, (do
        constants.forM fun p => installConstant p.1 p.2
        routines.forM installRoutine
        aliases.forM fun p => installAlias p.1 p.2
        installVersion) s = .ok () t ∧
      Stocked (plains constants ++ routines.map symbolOf ++ plains aliases ++
        [.plain "VERSION"]) t := by
  have three := (List.nodup_append.mp distinct).1
  have two := (List.nodup_append.mp three).1
  have one : ([] ++ plains constants).Nodup := (List.nodup_append.mp two).1
  obtain ⟨s₁, run₁, stocked⟩ := stocked.forM one
    fun p mem more t _ stocked free => adds_installConstant (fits p mem) stocked free (none p mem)
  obtain ⟨s₂, run₂, stocked⟩ := stocked.forM two
    fun r mem more t _ stocked free => adds_installRoutine (known r mem) stocked free
  obtain ⟨s₃, run₃, stocked⟩ := stocked.forM three fun p mem more t sub stocked free =>
    adds_installAlias stocked (sub (List.mem_append_right _ (targets p mem))) free (same p mem)
  obtain ⟨s₄, run₄, stocked⟩ := adds_installVersion stocked fun mem =>
    (List.nodup_append.mp distinct).2.2 _ mem _ (List.mem_singleton_self _) rfl
  refine ⟨s₄, ?_, stocked⟩
  simp only [Bind.bind, EStateM.bind, run₁, run₂, run₃, run₄]

/-- What is done before the frame of globals is pushed. -/
def fill : HostM Unit := do
  constants.forM fun p => installConstant p.1 p.2
  Routine.all.forM installRoutine
  aliases.forM fun p => installAlias p.1 p.2
  installVersion

/-- The library is filled, and a first frame is pushed on top of it. -/
theorem install_eq : install = fill >>= fun _ => onScope .host (Scope.push .empty) := by
  simp only [fill, bind_assoc]
  rfl

/-- A frame more does not count. -/
theorem Stocked.pushFrame (stocked : Stocked bound s) :
    Stocked bound (endState (onScope .host (Scope.push .empty)) s) := by
  have owning : (endState (onScope .host (Scope.push .empty)) s).Owning _ _ :=
    (Host.leads_pushFrame stocked.owning SymbolTable.within_empty).atEnd.1
  have own : s.environment? .host = some s.env := rfl
  rw [Host.endState_onScope _ own, Scope.push, Scope.endState_onStack] at owning ⊢
  have base : (s.withScope .host s.env ⟨s.scope.base,
      endState (Stack.push .empty) s.env.stack⟩).scope.base = s.scope.base := by
    rw [Host.scope, Host.scopeOf]
    exact (Host.base_withScope _).trans (by rw [if_pos ⟨rfl, stocked.inside⟩])
  refine ⟨owning, by simpa [Host.withScope, Host.withEnvironment] using stocked.inside, ?_, ?_, ?_⟩
  · exact (congrArg (fun t => t.symbols.reverse) base).trans stocked.symbols
  · exact fun b mem => stocked.locked b (base ▸ mem)
  · exact fun b mem => stocked.serves b (base ▸ mem)

end Library

namespace Host

theorem bare_stocked (settings : Settings) : Library.Stocked [] (bare settings) where
  owning := bare_owning settings
  inside := by simp [bare]
  symbols := rfl
  locked := by simp [scope, scopeOf, base, bare, SymbolTable.empty]
  serves := by simp [scope, scopeOf, base, bare, SymbolTable.empty]

/-- **The library can be filled**: no two of its symbols are the same. -/
theorem run_fill (settings : Settings) :
    ∃ t, Library.fill (bare settings) = .ok () t ∧ Library.Stocked Library.symbols t := by
  have distinct := Library.symbols_nodup
  unfold Library.symbols at distinct ⊢
  unfold Library.fill
  exact (bare_stocked settings).install Library.fits_constants Library.meaning_constants
    (fun _ mem => mem) Library.symbolOf_aliases Library.meaning_aliases distinct

theorem endState_of_ok {α β : Type} {m : HostM α} {f : α → HostM β} {s t : Host} {a : α}
    (run : m s = .ok a t) : endState (m >>= f) s = endState (f a) t := by
  simp only [endState, Bind.bind, EStateM.bind, run]

/-- What a host starts with is the library and one empty frame. -/
theorem start_eq {settings : Settings} {t : Host} (run : Library.fill (bare settings) = .ok () t) :
    start settings = endState (onScope .host (Scope.push .empty)) t := by
  rw [start, Library.install_eq, endState_of_ok run]

/-- **Nothing of the library fails to be installed.** A host starts with a base table that binds the
symbols of the library to locked values that provide what they mean, and no others. -/
theorem start_stocked (settings : Settings) : Library.Stocked Library.symbols (start settings) := by
  obtain ⟨t, run, stocked⟩ := run_fill settings
  rw [start_eq run]
  exact stocked.pushFrame

end Host

/-! ## Frames -/

namespace Library

/-- The host's own environment and the interrupt flag stay as they are. -/
def resting : Course Host where
  holds _ := True
  goes s t := t.env = s.env ∧ t.interrupted = s.interrupted
  refl _ := ⟨rfl, rfl⟩
  trans first second := ⟨second.1.trans first.1, second.2.trans first.2⟩

variable {s : Host}

theorem rests_onHeap {α : Type} (m : HeapM α) : resting.Leads (onHeap m) s fun _ _ => True :=
  Leads.onAnyHeap m fun _ => ⟨trivial, rfl, rfl⟩

theorem rests_onBase (step : TableM Unit) :
    resting.Leads (onScope .host (Scope.onBase step)) s fun _ _ => True := by
  have own : s.environment? .host = some s.env := rfl
  cases ends : step s.scope.base with
  | ok a t =>
    have inner : Scope.onBase step s.scope = .ok () { s.scope with base := t } := by
      simp only [Scope.onBase, ends]
    exact .of_ok (Host.run_onScope own inner) trivial ⟨rfl, rfl⟩ trivial
  | error f t =>
    have inner : Scope.onBase step s.scope = .error f { s.scope with base := t } := by
      simp only [Scope.onBase, ends]
    exact .of_error (Host.run_onScope_error own inner) trivial ⟨rfl, rfl⟩

theorem rests_bindPlain (name : String) (v : Handle) :
    resting.Leads (bindPlain name v) s fun _ _ => True := by
  rw [bindPlain, Scope.insertPlain_marked]
  exact rests_onBase _

theorem rests_installRoutine (r : Routine) :
    resting.Leads (installRoutine r) s fun _ _ => True := by
  unfold installRoutine
  refine (rests_onHeap _).bind fun v _ _ _ _ => (rests_onHeap _).bind fun _ _ _ _ _ => ?_
  refine (rests_onHeap _).bind fun d _ _ _ _ => ?_
  rw [Scope.insert_marked]
  exact rests_onBase _

theorem rests_installAlias (plain name : String) :
    resting.Leads (installAlias plain name) s fun _ _ => True := by
  unfold installAlias
  refine Leads.hostLookBind ?_
  refine Leads.hostOfBind trivial fun v _ => ?_
  exact rests_bindPlain plain v

/-- Nothing is pushed while the library is filled. -/
theorem rests_fill : resting.Leads fill s fun _ _ => True := by
  unfold fill
  refine Leads.bind (Q := fun _ _ => True) (Leads.forM trivial fun p _ _ _ _ => ?_)
    fun _ _ _ _ _ => ?_
  · unfold installConstant
    exact (rests_onHeap _).bind fun v _ _ _ _ => rests_bindPlain p.1 v
  refine Leads.bind (Q := fun _ _ => True) (Leads.forM trivial fun r _ _ _ _ =>
    rests_installRoutine r) fun _ _ _ _ _ => ?_
  refine Leads.bind (Q := fun _ _ => True) (Leads.forM trivial fun p _ _ _ _ =>
    rests_installAlias p.1 p.2) fun _ _ _ _ _ => ?_
  unfold installVersion
  refine (rests_onHeap _).bind fun v _ _ _ _ => (rests_onHeap _).bind fun _ _ _ _ _ => ?_
  exact rests_bindPlain "VERSION" v

end Library

/-- **The frame of globals** is pushed onto an empty stack. -/
theorem Host.start_pushed (settings : Settings) :
    ∃ t : Host,
    t.env = (bare settings).env ∧ t.interrupted = false ∧
      start settings = endState (onScope .host (Scope.push .empty)) t := by
  obtain ⟨t, run, -⟩ := run_fill settings
  obtain ⟨-, ⟨env, interrupted⟩, -⟩ := Library.rests_fill.ok run
  exact ⟨t, env, interrupted, start_eq run⟩

end ScriptHost
