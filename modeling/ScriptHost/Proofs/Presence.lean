import ScriptHost.Proofs.Host.Predicates

/-!
# Whether a key stands for something

The routine that tells whether a key stands for something runs in the frame of its own call, and
looks there. So it finds what its caller finds (`Host.find?_inCall`), and before that its parameter,
which has the name `id`: for this one name the answer is always yes, and for every other key, with
or without a mark, plain or mangled, it is the answer for the caller.
-/

set_option autoImplicit false

namespace ScriptHost

open HostM

theorem eq_of_unmark {key name : String} (bare : unmark key = (false, name)) : key = name := by
  unfold unmark at bare
  split at bare
  · split at bare
    · cases bare
    · exact (Prod.mk.inj bare).2
  · exact (Prod.mk.inj bare).2

theorem Scope.exists_lookup_iff {s : Scope} {key : String} :
    (∃ v, s.lookup key = .ok v) ↔ (s.find? key).isSome = true := by
  rw [Scope.lookup]
  cases s.find? key <;> simp

namespace Host

variable {s : Host} {key text : String} {v : Handle} {n : Nat}

/-- A key is found to stand for something in a call with one parameter if the caller finds it, or if
it is the parameter. -/
theorem isSome_find?_inCall {name : String} (bare : unmark name = (false, name)) (s : Host)
    (v : Handle) (key : String) :
    ((s.inCall [(name, v)]).scope.find? key).isSome = true ↔ (s.scope.find? key).isSome = true ∨
      key = name := by
  have bound : ∀ other, ((SymbolTable.ofNames [(name, v)]).get? (.plain other)).isSome = true ↔
      other = name := by
    intro other
    rw [Option.isSome_iff_ne_none, Ne, SymbolTable.get?_eq_none_iff, not_not]
    simp [SymbolTable.ofNames, SymbolTable.symbols]
  rw [find?_inCall, Option.isSome_or, Bool.or_eq_true, or_comm]
  rcases split : unmark key with ⟨marked, rest⟩
  cases marked with
  | true =>
    have other : key ≠ name := by
      rintro rfl
      simp [bare] at split
    simp [other]
  | false =>
    obtain rfl := eq_of_unmark split
    simp [bound]

/-- The routine looks in the frame of its own call. -/
theorem call_symbolExists (offered : s.Offers key .symbolExists) (ready : s.Ready 1)
    (spelt : (s.heap.data v).asString = .ok text) :
    ∃ w t, call (.free (n + 1)) key [v] s = .ok w t ∧ s.Still t ∧
      t.heap.data w = .leaf (.boolean ((s.inCall [("id", v)]).scope.find? text).isSome) := by
  have takes : Routine.symbolExists.Takes ["id"] := ⟨rfl, by decide⟩
  have called := run_call (n := n) [v] offered takes rfl ready
  have given : param "id" (s.inCall [("id", v)]) = .ok v (s.inCall [("id", v)]) :=
    param_inCall (by decide) rfl
  have read : onHeap (HeapM.asString v) (s.inCall [("id", v)]) =
      .ok text (s.inCall [("id", v)]) := by
    rw [HeapM.asString, onHeap_ask]
    exact congrArg (of · _) spelt
  let h := s.heap.push ⟨.leaf (.boolean ((s.inCall [("id", v)]).scope.find? text).isSome), false⟩
  have performed : Routine.perform (.free n) .symbolExists (s.inCall [("id", v)]) =
      .ok ⟨s.heap.size⟩
        ((s.inCall [("id", v)]).grown h (s.inCall [("id", v)]).env.stack.attained) := by
    simp only [Routine.perform, Bind.bind, EStateM.bind, given, read, look]
    rfl
  refine ⟨_, _, called.trans (always_left performed), ⟨h, _, Heap.extends_push _ _, rfl⟩, ?_⟩
  show h.data _ = _
  rw [Heap.data, Heap.cell_push_new]

theorem symbolExists_mem : Routine.symbolExists ∈ Routine.all := by decide +kernel

/-- **A host tells whether a key stands for something.** Where there is room for the call, it
answers whether the caller finds the key, however it is spelt; only the name of the routine's own
parameter is always said to stand for something. A host that has kept its library offers the
routine. -/
theorem presence_answered (offered : s.Offers key .symbolExists) (ready : s.Ready 1)
    (spelt : (s.heap.data v).asString = .ok text) (n : Nat) :
    (∃ w t answer, call (.free (n + 1)) key [v] s = .ok w t ∧ s.Still t ∧
      t.heap.data w = .leaf (.boolean answer) ∧
      (answer = true ↔ (∃ u, s.scope.lookup text = .ok u) ∨ text = "id")) ∧
    ∀ settings, WatchedRun Fence.aroundTable.watch (start settings) s →
      s.Offers (marked "SymbolExists") .symbolExists ∧
      (s.Unshadowed (.overload "SymbolExists" 1) → s.Offers "SymbolExists" .symbolExists) := by
  refine ⟨?_, fun settings run => ⟨?_, fun clear => ?_⟩⟩
  · obtain ⟨w, t, called, still, answered⟩ := call_symbolExists (n := n) offered ready spelt
    refine ⟨w, t, _, called, still, answered, ?_⟩
    rw [isSome_find?_inCall (by decide), Scope.exists_lookup_iff]
  · exact kept_offers_marked run symbolExists_mem rfl
  · exact kept_offers run symbolExists_mem (by decide) (.inr clear)

/-- The host in which a text has been made. -/
def withText (s : Host) (text : String) : Host :=
  endState ((Expr.literal (.string text)).eval (.free 0)) s

theorem exists_text {settings : Settings} {k : Nat}
    (run : WatchedRun Fence.aroundTable.watch (start settings) s) (ready : s.Ready k)
    (text : String) :
    WatchedRun Fence.aroundTable.watch (start settings) (s.withText text) ∧
      (s.withText text).Ready k ∧ (s.withText text).scope = s.scope ∧
      ∃ v, ((s.withText text).heap.data v).asString = .ok text := by
  have ran : ∀ run, (Expr.literal (.string text)).eval run s =
      .ok (.value ⟨s.heap.size⟩) { s with heap := s.heap.push ⟨.leaf (.string text), false⟩ } := by
    intro run
    rw [Expr.eval]
    rfl
  have unstopped : Unstopped Fence.aroundTable.watch (.literal (.string text)) 0 s := by
    rw [Unstopped, ran, ran]
  have ends : s.withText text = { s with heap := s.heap.push ⟨.leaf (.string text), false⟩ } := by
    rw [withText, endState, ran]
  refine ⟨run.tail (.evaluate _ _ unstopped), ?_⟩
  rw [ends]
  refine ⟨ready.congr rfl rfl, rfl, ⟨s.heap.size⟩, ?_⟩
  show ((s.heap.push _).data _).asString = _
  rw [Heap.data, Heap.cell_push_new]
  rfl

/-- A name that neither a frame nor the base table binds, and that is not mangled, stands for
nothing. -/
theorem find?_eq_none (bare : unmark text = (false, text)) (plain : demangle? text = none)
    (clear : s.Unshadowed (.plain text)) (free : s.scope.base.get? (.plain text) = none) :
    s.scope.find? text = none := by
  have none : s.scope.stack.frames.findSome? (·.get? (.plain text)) = none :=
    List.findSome?_eq_none_iff.mpr clear
  simp [Scope.find?, Scope.searchOrder, bare, List.findSome?_append, none, free, plain]

/-- Right after the start only the library can be found. -/
theorem start_find? (settings : Settings) (bare : unmark text = (false, text))
    (plain : demangle? text = none) (free : .plain text ∉ Library.symbols) :
    (start settings).scope.find? text = none := by
  refine find?_eq_none bare plain ?_ ?_
  · intro frame mem
    rw [(start_env settings).1] at mem
    rw [List.mem_singleton.mp mem]
    rfl
  · rw [SymbolTable.get?_eq_none_iff, ← List.mem_reverse, (start_stocked settings).symbols]
    exact free

/-- A name that stands for nothing, and one of the library with its mark. -/
theorem presence_answered_version :
    (∃ v w t, call (.free 9) (marked "SymbolExists") [v] ((start .default).withText "question") =
      .ok w t ∧ t.heap.data w = .leaf (.boolean false)) ∧
    ∃ v w t, call (.free 9) (marked "SymbolExists") [v]
      ((start .default).withText (marked "VERSION")) = .ok w t ∧
      t.heap.data w = .leaf (.boolean true) := by
  have offers : ∀ {s}, WatchedRun Fence.aroundTable.watch (start .default) s →
      s.Offers (marked "SymbolExists") .symbolExists :=
    fun run => kept_offers_marked run symbolExists_mem rfl
  have ready := start_ready .default (k := 1) (by decide)
  constructor
  · obtain ⟨run, ready, scope, v, spelt⟩ := exists_text .refl ready "question"
    obtain ⟨⟨w, t, answer, called, -, answered, iff⟩, -⟩ :=
      presence_answered (offers run) ready spelt 8
    have missing : answer ≠ true := by
      rw [Ne, iff, Scope.exists_lookup_iff, scope,
        start_find? .default (by decide) (by decide) (by decide +kernel)]
      decide
    exact ⟨v, w, t, called, by simpa [missing] using answered⟩
  · obtain ⟨run, ready, -, v, spelt⟩ := exists_text .refl ready (marked "VERSION")
    obtain ⟨⟨w, t, answer, called, -, answered, iff⟩, -⟩ :=
      presence_answered (offers run) ready spelt 8
    obtain ⟨u, -, bound, -⟩ := kept_symbol (r := .plain "VERSION") run (by decide +kernel)
    have found : answer = true := iff.mpr (.inl ⟨u, Scope.lookup_marked bound⟩)
    exact ⟨v, w, t, called, found ▸ answered⟩

/-- The name of the parameter is said to stand for something where it does not. -/
theorem presence_mistaken :
    let s := (start .default).withText "id"
    (∀ u, s.scope.lookup "id" ≠ .ok u) ∧
      ∃ v w t, (s.heap.data v).asString = .ok "id" ∧
      call (.free 9) (marked "SymbolExists") [v] s = .ok w t ∧
        t.heap.data w = .leaf (.boolean true) := by
  intro s
  obtain ⟨run, ready, scope, v, spelt⟩ :=
    exists_text .refl (start_ready .default (k := 1) (by decide)) "id"
  refine ⟨?_, v, ?_⟩
  · have missing : ¬ ∃ u, s.scope.lookup "id" = .ok u := by
      rw [Scope.exists_lookup_iff, scope,
        start_find? .default (by decide) (by decide) (by decide +kernel)]
      decide
    exact not_exists.mp missing
  · have offered : s.Offers (marked "SymbolExists") .symbolExists :=
      kept_offers_marked run symbolExists_mem rfl
    obtain ⟨w, t, called, -, answered⟩ := call_symbolExists (n := 8) offered ready spelt
    have found := (isSome_find?_inCall (by decide) s v "id").mpr (.inr rfl)
    exact ⟨w, t, spelt, called, found ▸ answered⟩

end Host

end ScriptHost
