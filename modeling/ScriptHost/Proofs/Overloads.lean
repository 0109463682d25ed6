import ScriptHost.Proofs.Host.Tidy

/-!
# Overloads and the tables that bind them

A function is bound under one symbol for each of its arities, and the symbols stay when the function
changes. What stands under an overload symbol is an executable in every reachable state. It need not
have the overload any more: an assignment puts the overloads of its source in the place of all it
had, and then a call by a name that is bound fails with a fault about the name of the source
(`Host.overloads_lost`).

No other step takes an overload from an executable. In a run in which no assignment does so to one
that is bound under that arity, every overload symbol stands for an executable that has it, and a
call is resolved exactly if the symbol is found: `Host.overloads_answered`.
-/

set_option autoImplicit false

namespace ScriptHost

open HostM Course

/-! ## Resolving a call -/

theorem Data.exists_of_kind {ρ : Type} {d : Data ρ} (kind : d.kind = .executable) :
    ∃ e, d = .leaf (.executable e) := by
  cases d with
  | leaf l =>
    cases l with
    | executable e => exact ⟨e, rfl⟩
    | _ => cases kind
  | _ => cases kind

/-- An executable has a callable for each of its arities, which takes so many arguments. -/
theorem Executable.get?_of_mem {e : Executable} {arity : Nat} (mem : arity ∈ e.arities) :
    ∃ c, e.get? arity = some c ∧ c.arity = arity := by
  obtain ⟨c, inside, same⟩ := List.mem_map.mp mem
  have some : (e.get? arity).isSome := List.find?_isSome.mpr ⟨c, inside, by simpa using same⟩
  obtain ⟨d, found⟩ := Option.isSome_iff_exists.mp some
  exact ⟨d, found, by simpa using List.find?_some found⟩

theorem Executable.get?_eq_none {e : Executable} {arity : Nat} (lacks : arity ∉ e.arities) :
    e.get? arity = none :=
  List.find?_eq_none.mpr fun c inside same =>
    lacks (List.mem_map.mpr ⟨c, inside, by simpa using same⟩)

namespace Host

variable {s : Host} {name : String} {arity : Nat} {v : Handle}

/-- A name that is not found is not resolved. -/
theorem resolve_of_missing {f : Fault} (missing : s.scope.lookupOverload name arity = .error f) :
    resolve name arity s = .error (.fault f) s := by
  simp only [resolve, look, of, Bind.bind, EStateM.bind, missing]

/-- A name that is found is resolved to what its executable has for the arity. -/
theorem resolve_of_found {e : Executable} {c : Callable}
    (found : s.scope.lookupOverload name arity = .ok v)
    (held : s.heap.data v = .leaf (.executable e)) (has : e.get? arity = some c) :
    resolve name arity s = .ok c s := by
  simp only [resolve, look, of, Bind.bind, EStateM.bind, found, onHeap, HeapM.callable,
    HeapM.ask, held, has]

/-- An executable without the overload is refused by its own name. -/
theorem resolve_of_lost {e : Executable} (found : s.scope.lookupOverload name arity = .ok v)
    (held : s.heap.data v = .leaf (.executable e)) (lost : e.get? arity = none) :
    resolve name arity s = .error (.fault (.noSuchSymbol (mangle e.name arity))) s := by
  simp only [resolve, look, of, Bind.bind, EStateM.bind, found, onHeap, HeapM.callable,
    HeapM.ask, held, lost]

/-! ## All tables -/

/-- All tables of a host: the base tables, the frames of its environments, and the tables by
name. -/
def allTables (s : Host) : List SymbolTable :=
  s.bases.toList ++ s.env.stack.frames ++ s.environments.flatMap (·.2.stack.frames) ++
    s.tables.map (·.2)

/-- What all tables of a host bind under overload symbols is there, with its overloads, in a
heap. -/
def Answered (strict : Prop) (s : Host) (h : Heap) : Prop :=
  ∀ t ∈ s.allTables, ∀ b ∈ t.bindings, b.1.AnsweredBy strict (h.data b.2)

theorem Tidy.answered {strict : Prop} (tidy : s.Tidy strict) : s.Answered strict s.heap := by
  intro t mem
  simp only [allTables, List.mem_append, List.mem_flatMap, List.mem_map] at mem
  rcases mem with ((mem | mem) | ⟨p, inside, mem⟩) | ⟨p, inside, rfl⟩
  · obtain ⟨i, bound, rfl⟩ := List.mem_iff_getElem.mp mem
    have same : s.base i = s.bases.toList[i] := by
      have inside : i < s.bases.size := by simpa using bound
      simp [base, inside]
    rw [← same]
    exact (tidy.bases i).answered
  · exact (tidy.env.stack.frames t mem).answered
  · exact ((tidy.environments p inside).stack.frames t mem).answered
  · exact (tidy.tables p inside).answered

/-- A tidy host stays so with another heap in which all is there that its tables bind. -/
theorem Tidy.reheap {strict : Prop} {h : Heap} (tidy : s.Tidy strict)
    (answered : s.Answered strict h) : { s with heap := h }.Tidy strict := by
  have known : ∀ t ∈ s.allTables, t.Tidy strict s.heap → t.Tidy strict h :=
    fun t mem tidy => ⟨tidy.distinct, answered t mem⟩
  have stack : ∀ {k : Stack}, (∀ f ∈ k.frames, f ∈ s.allTables) → k.Tidy strict s.heap →
      k.Tidy strict h :=
    fun inside tidy =>
      { tidy with frames := fun f mem => known f (inside f mem) (tidy.frames f mem) }
  refine ⟨fun i => ?_, ⟨tidy.env.base, stack (fun f mem => ?_) tidy.env.stack⟩, fun p mem => ?_,
    fun p mem => ?_⟩
  · show (s.base i).Tidy strict h
    by_cases inside : i < s.bases.size
    · have listed : s.base i ∈ s.allTables := by simp [allTables, base, inside]
      exact known _ listed (tidy.bases i)
    · have none : s.base i = .empty := by simp [base, inside]
      rw [none]
      exact SymbolTable.tidy_empty
  · simp [allTables, mem]
  · refine ⟨(tidy.environments p mem).base,
      stack (fun f inside => ?_) (tidy.environments p mem).stack⟩
    simp only [allTables, List.mem_append, List.mem_flatMap]
    exact .inl (.inr ⟨p, mem, inside⟩)
  · have listed : p.2 ∈ s.allTables := by
      simp only [allTables, List.mem_append]
      exact .inr (List.mem_map_of_mem mem)
    exact known _ listed (tidy.tables p mem)

end Host

/-! ## Assignments that take no overload away -/

/-- What an act assigns to, and what it assigns. -/
def Act.assigned? : Act → Option (Handle × Handle)
  | .operate .assign a b => some (a, b)
  | _ => none

namespace Host

/-- A heap in which the values that a host has bound as overloads still have those that they have
now. -/
def KeepsOverloads (s : Host) (h : Heap) : Prop :=
  ∀ t ∈ s.allTables, ∀ b ∈ t.bindings, b.1.AnsweredBy True (s.heap.data b.2) →
    b.1.AnsweredBy True (h.data b.2)

instance (s : Host) (h : Heap) : Decidable (s.KeepsOverloads h) :=
  inferInstanceAs (Decidable (∀ t ∈ s.allTables, ∀ b ∈ t.bindings,
    b.1.AnsweredBy True (s.heap.data b.2) → b.1.AnsweredBy True (h.data b.2)))

/-- An act that is no assignment, or one after which every bound executable has the overloads it
had. -/
def Spares (act : Act) (s : Host) : Prop :=
  ∀ p ∈ act.assigned?, s.KeepsOverloads (endState (HeapM.assign p.1 p.2) s.heap)

instance (act : Act) (s : Host) : Decidable (Spares act s) :=
  inferInstanceAs
    (Decidable (∀ p ∈ act.assigned?, s.KeepsOverloads (endState (HeapM.assign p.1 p.2) s.heap)))

/-- **No bound executable loses an overload** when assignments that take one away are stopped. -/
theorem retains_spares : Retains True (stopUnless Spares) := by
  intro act s
  by_cases spares : Spares act s
  · refine .inl ⟨stopUnless_of_passes spares, ?_⟩
    rintro a b rfl tidy
    have keeps : s.KeepsOverloads (endState (HeapM.assign a b) s.heap) := spares (a, b) rfl
    exact tidy.reheap fun t mem b inside => keeps t mem b inside (tidy.answered t mem b inside)
  · exact .inr ⟨.exhausted, stopUnless_of_not_passes spares⟩

/-! ## Calls by name -/

variable {s : Host} {name : String} {arity : Nat} {v : Handle}

theorem Tidy.get?_overload {strict : Prop} {t : SymbolTable} (tidy : s.Tidy strict)
    (mem : t ∈ s.allTables) (found : t.get? (.overload name arity) = some v) :
    (s.heap.data v).kind = .executable ∧ (strict → arity ∈ (s.heap.data v).arities) :=
  tidy.answered t mem (_, v) (SymbolTable.mem_of_get? found)

/-- In a tidy host without lost overloads, a call is resolved to a callable for the number of its
arguments if its name is found. -/
theorem Tidy.resolve (tidy : s.Tidy True) (found : s.scope.lookupOverload name arity = .ok v) :
    ∃ c, HostM.resolve name arity s = .ok c s ∧ c.arity = arity := by
  have scope : s.scope.Tidy True s.heap := tidy.scopeOf tidy.env
  obtain ⟨kind, has⟩ := scope.lookupOverload found
  obtain ⟨e, held⟩ := Data.exists_of_kind kind
  rw [held] at has
  obtain ⟨c, callable, arity⟩ := Executable.get?_of_mem (has trivial)
  exact ⟨c, resolve_of_found found held callable, arity⟩

/-- A name that is not found is named, with the arity, by the fault of a call. -/
theorem resolve_of_lookup_error {f : Fault}
    (missing : s.scope.lookupOverload name arity = .error f) :
    HostM.resolve name arity s = .error (.fault (.noSuchSymbol (mangle name arity))) s := by
  have same : f = .noSuchSymbol (mangle name arity) := by
    unfold Scope.lookupOverload at missing
    split at missing
    · cases missing
    · cases missing; rfl
  rw [resolve_of_missing missing, same]

/-- **Overload symbols stand for executables.** Whatever a session does, the value under an overload
symbol in any table is an executable, and a call by a name that is found is resolved to what that
executable has for the number of arguments, or is refused with the name of the executable. While no
assignment takes a bound overload away, the executable has a callable of that arity, and a call
fails for want of a symbol exactly if its name is not found for the arity; the fault names both. -/
theorem overloads_answered (session : Session) (s : Host) :
    (Run (fun _ => True) session.host s →
      (∀ t ∈ s.allTables, ∀ name arity v, t.get? (.overload name arity) = some v →
        ∃ e, s.heap.data v = .leaf (.executable e)) ∧
      ∀ name arity v, s.scope.lookupOverload name arity = .ok v →
      ∃ e, s.heap.data v = .leaf (.executable e) ∧
        (∀ c, e.get? arity = some c → HostM.resolve name arity s = .ok c s) ∧
        (e.get? arity = none →
          HostM.resolve name arity s = .error (.fault (.noSuchSymbol (mangle e.name arity))) s)) ∧
    (WatchedRun (stopUnless Spares) session.host s →
      (∀ t ∈ s.allTables, ∀ name arity v, t.get? (.overload name arity) = some v →
        ∃ e c, s.heap.data v = .leaf (.executable e) ∧ e.get? arity = some c ∧ c.arity = arity) ∧
      ∀ name arity,
        ((∃ key t, HostM.resolve name arity s = .error (.fault (.noSuchSymbol key)) t) ↔
          ∃ f, s.scope.lookupOverload name arity = .error f) ∧
        (∀ key t, HostM.resolve name arity s = .error (.fault (.noSuchSymbol key)) t →
          key = mangle name arity) ∧
        ∀ v, s.scope.lookupOverload name arity = .ok v →
          ∃ c, HostM.resolve name arity s = .ok c s ∧ c.arity = arity) := by
  refine ⟨fun run => ?_, fun run => ?_⟩
  · have tidy : s.Tidy False := Reachable.tidy ⟨session, run⟩
    have scope : s.scope.Tidy False s.heap := tidy.scopeOf tidy.env
    refine ⟨fun t mem name arity v found => Data.exists_of_kind (tidy.get?_overload mem found).1,
      ?_⟩
    intro name arity v found
    obtain ⟨e, held⟩ := Data.exists_of_kind (scope.lookupOverload found).1
    exact ⟨e, held, fun c has => resolve_of_found found held has, resolve_of_lost found held⟩
  · have tidy : s.Tidy True := run.tidy retains_spares (session_tidy session)
    refine ⟨fun t mem name arity v found => ?_, fun name arity => ?_⟩
    · obtain ⟨kind, has⟩ := tidy.get?_overload mem found
      obtain ⟨e, held⟩ := Data.exists_of_kind kind
      rw [held] at has
      obtain ⟨c, callable, same⟩ := Executable.get?_of_mem (has trivial)
      exact ⟨e, c, held, callable, same⟩
    · cases found : s.scope.lookupOverload name arity with
      | error f =>
        have refused := resolve_of_lookup_error found
        refine ⟨⟨fun _ => ⟨f, rfl⟩, fun _ => ⟨_, s, refused⟩⟩, fun key t fails => ?_, by simp⟩
        rw [refused] at fails
        cases fails
        rfl
      | ok v =>
        obtain ⟨c, resolved, same⟩ := tidy.resolve found
        refine ⟨⟨?_, by simp⟩, ?_, fun _ _ => ⟨c, resolved, same⟩⟩
        · rintro ⟨key, t, fails⟩
          rw [resolved] at fails
          cases fails
        · intro key t fails
          rw [resolved] at fails
          cases fails

/-- A function that is bound, given a second overload afterwards and then assigned another function
with the overload it is bound under, is called by the name it is bound under; with two arguments
that name is not found. -/
theorem overloads_answered_assigned :
    let program := Expr.sequence
      [.bind (.symbol .host "F") (.hold "f" (.function "F" [⟨"x", .reference⟩] [])),
        .binary .add (.held "f") (.function "G" [⟨"a", .reference⟩, ⟨"b", .reference⟩] []),
        .binary .assign (.held "f") (.function "H" [⟨"y", .value⟩] [])]
    let s := endState (program.eval (.free 9)) (bare .default)
    (∃ c, HostM.resolve "F" 1 s = .ok c s ∧ c.arity = 1) ∧
      (∃ key t, HostM.resolve "F" 2 s = .error (.fault (.noSuchSymbol key)) t) ∧
      ∀ key t, HostM.resolve "F" 2 s = .error (.fault (.noSuchSymbol key)) t → key = "F_2" := by
  intro program s
  have unstopped : Unstopped (stopUnless Spares) program 9 (bare .default) :=
    unstopped_of_not_gaveUp approx_stopUnless (by decide +kernel)
  have run : WatchedRun (stopUnless Spares) (bare .default) s :=
    .single (.evaluate program 9 unstopped)
  obtain ⟨-, calls⟩ := (overloads_answered ⟨.default, true, [], none⟩ s).2 run
  have found : s.scope.findOverload? "F" 1 = some ⟨0⟩ := by decide +kernel
  have missing : s.scope.findOverload? "F" 2 = none := by decide +kernel
  refine ⟨(calls "F" 1).2.2 ⟨0⟩ ?_, (calls "F" 2).1.mpr ⟨.noSuchSymbol (mangle "F" 2), ?_⟩,
    (calls "F" 2).2.1⟩
  · simp only [Scope.lookupOverload, found]
  · simp only [Scope.lookupOverload, missing]

/-- **An overload that is bound and lost.** A function with one parameter is bound, and then
assigned one with two parameters. The name is still found for one argument, and a call fails for
want of another name. -/
theorem overloads_lost :
    let s := Session.after (bare .default)
      [.bind (.symbol .host "F") (.hold "f" (.function "F" [⟨"x", .reference⟩] [])),
        .binary .assign (.held "f") (.function "G" [⟨"a", .reference⟩, ⟨"b", .reference⟩] [])]
    s.Reachable ∧ s.scope.findOverload? "F" 1 = some ⟨0⟩ ∧ (s.heap.data ⟨0⟩).arities = [2] ∧
      HostM.resolve "F" 1 s = .error (.fault (.noSuchSymbol "G_1")) s := by
  intro s
  have reachable : s.Reachable := reachable_after ⟨.default, true, [], none⟩ _
  have found : s.scope.findOverload? "F" 1 = some ⟨0⟩ := by decide +kernel
  have arities : (s.heap.data ⟨0⟩).arities = [2] := by decide +kernel
  have name : (s.heap.data ⟨0⟩).asExecutable?.map Executable.name = some "G" := by decide +kernel
  refine ⟨reachable, found, arities, ?_⟩
  obtain ⟨e, held⟩ : ∃ e, s.heap.data ⟨0⟩ = .leaf (.executable e) :=
    Data.exists_of_kind (by decide +kernel)
  rw [held] at arities name
  have lost : e.get? 1 = none :=
    Executable.get?_eq_none (by rw [show e.arities = [2] from arities]; simp)
  have same : e.name = "G" := Option.some.inj name
  rw [resolve_of_lost (by simp only [Scope.lookupOverload, found]) held lost, same]
  rfl

end Host

end ScriptHost
