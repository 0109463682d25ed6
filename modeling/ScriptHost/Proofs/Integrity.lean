import ScriptHost.Proofs.Frames
import ScriptHost.Proofs.Freeze
import ScriptHost.Proofs.Host.Startup
import ScriptHost.Proofs.Host.Tidy

/-!
# The library stays what it is

Whatever is bound in a table stays bound to the same value until the table is emptied, whether later
bindings succeed or fail half way (`SymbolTable.get?_after`). So the library of a host can only be
lost with its whole base table: in a run that neither empties that table, through whatever
environment, nor gives the host another environment, every name of the library stands for the value
it stood for at the start, and as these values are locked, they look as they did then:
`Host.library_kept`.
-/

set_option autoImplicit false

namespace ScriptHost

open HostM Course

/-! ## Tables -/

/-- What can be done to a table short of emptying it. -/
inductive TableStep where
  | insert (name : String) (v : Handle) (d : Data Handle)
  | insertPlain (name : String) (v : Handle)
  | insertOverloads (name : String) (v : Handle) (arities : List Nat)
  | load (bindings : List (Symbol × Handle))

/-- Does it, or fails. -/
def TableStep.perform : TableStep → TableM Unit
  | .insert name v d => SymbolTable.bindAll (SymbolTable.symbolsOf name d) v
  | .insertPlain name v => SymbolTable.bind (.plain name) v
  | .insertOverloads name v arities => SymbolTable.bindAll (arities.map (.overload name)) v
  | .load bindings => SymbolTable.load bindings

/-- A step takes no binding away, whether it fails or not. -/
theorem TableStep.keeps (step : TableStep) (t : SymbolTable) :
    (SymbolTable.keeping fun _ => True).Leads step.perform t fun _ _ => True := by
  cases step with
  | insert name v d => exact SymbolTable.keeps_bindAll trivial fun _ _ _ _ _ => trivial
  | insertPlain name v => exact SymbolTable.keeps_bind trivial fun _ => trivial
  | insertOverloads name v arities =>
    exact SymbolTable.keeps_bindAll trivial fun _ _ _ _ _ => trivial
  | load bindings => exact SymbolTable.keeps_load trivial fun _ _ _ _ _ => trivial

namespace SymbolTable

/-- The table after some steps, each of which may fail. -/
def after (t : SymbolTable) (steps : List TableStep) : SymbolTable :=
  steps.foldl (fun t step => endState step.perform t) t

/-- **A binding stays** under any steps. -/
theorem get?_after {t : SymbolTable} {r : Symbol} {v : Handle} (found : t.get? r = some v)
    (steps : List TableStep) : (t.after steps).get? r = some v := by
  induction steps generalizing t with
  | nil => exact found
  | cons step steps ih => exact ih ((step.keeps t).atEnd.2 r v found)

end SymbolTable

/-! ## Runs that spare the base table -/

/-- The fence around the base table alone: it stops what would empty it, and what would put another
environment in the place of the host's own. -/
def Fence.aroundTable : Fence := ⟨0, false, true⟩

namespace Host

variable {s t : Host} {f : Fence} {g : Ground}

/-- **One step** inside of a fence leaves the bindings that it encloses. -/
theorem WatchedStep.under (step : WatchedStep f.watch s t) (encloses : f.Encloses g)
    (low : g.frames = []) (under : g.Under s) : g.Under t := by
  have held : (standing (some g)).course.holds s := by
    rintro _ ⟨⟩
    exact under
  cases step with
  | evaluate e levels unstopped =>
    rw [← endState_unstopped unstopped]
    exact ((standing_lawful encloses.guards).leads_watched e levels held).atEnd.1 g rfl
  | hold register v made => exact under.congr rfl rfl
  | enter c args made => exact (standing_bindParams held).atEnd.1 g rfl
  | leave depth =>
    have room : g.frames.length + g.room ≤ depth := by simp [low, encloses.room]
    exact under.unwind room
  | count calls => exact under.congr rfl rfl
  | log reports => exact under.congr rfl rfl

/-- **A run** inside of a fence leaves the bindings that it encloses. -/
theorem WatchedRun.under (run : WatchedRun f.watch s t) (encloses : f.Encloses g)
    (low : g.frames = []) (under : g.Under s) : g.Under t := by
  induction run with
  | refl => exact under
  | tail _ step ih => exact step.under encloses low ih

/-- What is bound in the base table stays bound while nothing empties it. -/
theorem WatchedRun.get?_base {r : Symbol} {v : Handle}
    (run : WatchedRun Fence.aroundTable.watch s t) (reachable : s.Reachable)
    (found : s.scope.base.get? r = some v) : t.scope.base.get? r = some v := by
  let g : Ground := ⟨[], 0, s.env.stack.limit, s.env.base, s.scope.base.bindings⟩
  have under : g.Under t := run.under ⟨.inl rfl, rfl, .inr rfl⟩ rfl
    ⟨List.nil_suffix, Nat.zero_le _, rfl, rfl, List.suffix_rfl⟩
  have tidy : t.Tidy False := run.run.watched.tidy retains_nothing reachable.tidy
  have same : t.scope.base = t.base s.env.base := by
    show t.base t.env.base = t.base s.env.base
    rw [under.base]
  rw [same]
  exact SymbolTable.get?_of_mem (tidy.bases _).distinct
    (under.bindings.subset (SymbolTable.mem_of_get? found))

end Host

/-! ## The library -/

theorem Library.plain_mem_symbols {name : String} (mem : name ∈ plainNames) :
    .plain name ∈ symbols := by
  unfold plainNames at mem
  unfold symbols plains
  simp only [List.mem_append, List.mem_map, List.mem_singleton] at mem ⊢
  rcases mem with (⟨p, inside, rfl⟩ | ⟨p, inside, rfl⟩) | rfl
  · exact .inl (.inl (.inl ⟨p, inside, rfl⟩))
  · exact .inl (.inr ⟨p, inside, rfl⟩)
  · exact .inr rfl

theorem Library.symbolOf_mem_symbols {routine : Routine} (mem : routine ∈ Routine.all) :
    symbolOf routine ∈ symbols := by
  unfold symbols
  simp only [List.mem_append]
  exact .inl (.inl (.inr (List.mem_map_of_mem mem)))

namespace Host

variable {settings : Settings} {s : Host}

theorem reachable_start (settings : Settings) : (start settings).Reachable := by
  refine ⟨⟨settings, false, [], none⟩, ?_⟩
  rw [Session.host, if_neg Bool.false_ne_true]

/-- A value that looks in a later state as it did in an earlier one, and is locked. -/
def Frozen (s t : Host) (v : Handle) : Prop :=
  t.heap.isLocked v = true ∧ t.heap.image v = s.heap.image v

/-- What the library binds to a symbol. -/
theorem kept_symbol {r : Symbol} (run : WatchedRun Fence.aroundTable.watch (start settings) s)
    (mem : r ∈ Library.symbols) :
    ∃ v, (start settings).scope.base.get? r = some v ∧ s.scope.base.get? r = some v ∧
      Frozen (start settings) s v := by
  obtain ⟨v, found, made, locked, -⟩ := (start_stocked settings).get? mem
  obtain ⟨-, changes⟩ := run.run.owning (start_owning settings)
  have same : s.heap.cell v = (start settings).heap.cell v := changes.cell_of_locked made locked
  refine ⟨v, found, run.get?_base (reachable_start settings) found, ?_, ?_⟩
  · rw [Heap.isLocked_congr same, locked]
  · exact changes.image_of_locked
      (start_owning settings : (start settings).Owning False _).region made locked

/-- **The library is kept.** While nothing empties the base table of a host or gives it another
environment, every plain name of the library, and every routine of it by name and arity, is found in
the base table as right after the start, and what is found is locked and looks as it did. In any
table at all a binding stays as it is under all steps that bind, whether they succeed or fail. -/
theorem library_kept (run : WatchedRun Fence.aroundTable.watch (start settings) s) :
    (∀ name ∈ Library.plainNames, ∃ v, (start settings).scope.lookup (marked name) = .ok v ∧
      s.scope.lookup (marked name) = .ok v ∧ Frozen (start settings) s v) ∧
    (∀ routine ∈ Routine.all, ∃ v,
      (start settings).scope.lookupOverload
      (marked routine.signature.1) routine.signature.2.length = .ok v ∧
      s.scope.lookupOverload (marked routine.signature.1) routine.signature.2.length = .ok v ∧
      Frozen (start settings) s v) ∧
    ∀ (t : SymbolTable) (steps : List TableStep) (r : Symbol) (v : Handle), t.get? r = some v →
      (t.after steps).get? r = some v := by
  refine ⟨fun name mem => ?_, fun routine mem => ?_,
    fun t steps r v found => SymbolTable.get?_after found steps⟩
  · obtain ⟨v, before, after, frozen⟩ := kept_symbol run (Library.plain_mem_symbols mem)
    exact ⟨v, Scope.lookup_marked before, Scope.lookup_marked after, frozen⟩
  · obtain ⟨v, before, after, frozen⟩ := kept_symbol run (Library.symbolOf_mem_symbols mem)
    exact ⟨v, Scope.lookupOverload_marked before, Scope.lookupOverload_marked after, frozen⟩

/-- A program that drops the frame of globals, so that names are bound in the base table, shares
that table with another environment and binds a name through it, empties an environment of its own,
and tries to bind a name of the library again and to change a constant. -/
theorem library_kept_attempts :
    let program := Expr.sequence
      [.command (.popFrame .host), .attempt (.bind (.symbol .host "NULL") (.literal (.integer 1))),
        .command (.cloneEnv .host (.named "shared") .minimal),
        .bind (.symbol (.named "shared") (marked "x")) (.literal (.integer 2)),
        .command (.newEnv (.named "own") none), .command (.clearEnv (.named "own")),
        .attempt (.binary .assign (.command (.lookup .host "INTEGER_MAX")) (.literal (.integer 3)))]
    let s := endState (program.eval (.free 9)) (start .default)
    ∃ v, (start .default).scope.lookup (marked "INTEGER_MAX") = .ok v ∧
      s.scope.lookup (marked "INTEGER_MAX") = .ok v ∧ Frozen (start .default) s v := by
  intro program s
  have unstopped : Unstopped Fence.aroundTable.watch program 9 (start .default) :=
    unstopped_of_not_gaveUp Fence.approx_watch (by decide +kernel)
  have run : WatchedRun Fence.aroundTable.watch (start .default) s :=
    .single (.evaluate program 9 unstopped)
  exact (library_kept run).1 "INTEGER_MAX" (by decide +kernel)

end Host

end ScriptHost
