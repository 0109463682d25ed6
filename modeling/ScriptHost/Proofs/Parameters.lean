import ScriptHost.Proofs.Host.Cloning
import ScriptHost.Proofs.Separation
import ScriptHost.Proofs.StackLimit
import ScriptHost.Proofs.Termination

/-!
# Parameters are bound in a frame of their own

A call binds its parameters before its body starts. What a parameter stands for is said by `Passed`:
the argument itself, or a copy of it that looks like the argument without its locks and reaches
nothing that was there before the call. Passing an argument never fails, whatever else has been
passed already (`Host.run_bound`, `Host.run_bindings`), and the names of the parameters of a
callable differ, so that they are all bound in one new frame (`HostM.frame_of_nodup`). The only
thing that can go wrong is that there is no room for the frame (`Host.parameters_bound`).

The frame is the first place that a bare name is looked up in, so the parameters come before
everything that is bound outside (`Scope.lookup_pushed`).
-/

set_option autoImplicit false

namespace ScriptHost

open HostM

/-- What a parameter stands for, given its argument: the argument itself, or else something new with
the same looks. -/
inductive Passed (before after : Heap) : BindingMode → Handle → Handle → Prop where
  | reference (a : Handle) : Passed before after .reference a a
  | value {a w : Handle} (looks : after.image w = (before.image a).unlocked)
    (new : ∀ u, after.Reaches w u → after.Made u ∧ ¬ before.Made u) : Passed before after .value a w

namespace Passed

variable {before middle after : Heap} {mode : BindingMode} {a w : Handle}

/-- What has been passed stays as it is while more arguments are passed. -/
theorem later (passed : Passed before middle mode a w) (formed : middle.WellFormed)
    (ext : middle.Extends after) : Passed before after mode a w := by
  cases passed with
  | reference => exact .reference a
  | value looks new =>
    have made : middle.Made w := (new w (.refl w)).1
    apply Passed.value
    · rw [ext.image formed made, looks]
    · intro u reach
      obtain ⟨there, fresh⟩ := new u (formed.reaches_of_extends ext reach made)
      exact ⟨ext.made there, fresh⟩

/-- What is passed after other arguments is passed as if it were the first. -/
theorem earlier (passed : Passed middle after mode a w) (formed : before.WellFormed)
    (ext : before.Extends middle) (made : before.Made a) : Passed before after mode a w := by
  cases passed with
  | reference => exact .reference a
  | value looks new =>
    apply Passed.value
    · rw [looks, ext.image formed made]
    · intro u reach
      obtain ⟨there, fresh⟩ := new u reach
      exact ⟨there, fun old => fresh (ext.made old)⟩

end Passed

/-! ## Passing arguments -/

namespace Host

variable {s : Host}

/-- **One argument.** -/
theorem run_bound (mode : BindingMode) {a : Handle} (formed : s.heap.WellFormed)
    (made : s.heap.Made a) :
    ∃ w h, bound mode a s = .ok w { s with heap := h } ∧ s.heap.Extends h ∧ h.WellFormed ∧
      Passed s.heap h mode a w := by
  cases mode with
  | reference => exact ⟨a, s.heap, rfl, .refl _, formed, .reference a⟩
  | value =>
    obtain ⟨w, h, run, state, ⟨-, ext⟩, copy⟩ := Heap.yields_copy formed.region.realm made
    refine ⟨w, h, by simp only [bound, onHeap, run], ext, state.region.formed,
      .value (copy.image_eq state.region.formed) ?_⟩
    intro u reach
    exact ⟨state.region.formed.made_of_reaches reach copy.made,
      Nat.not_lt.mpr (state.new_of_reaches reach copy.new)⟩

/-- **All arguments**, one after the other. The heap has grown since the call began by what has been
passed so far. -/
theorem run_bindings {before : Heap} (params : List Param) (args : List Handle)
    (origin : before.WellFormed) (made : ∀ a ∈ args, before.Made a) (grown : before.Extends s.heap)
    (formed : s.heap.WellFormed) :
    ∃ bs h, bindings params args s = .ok bs { s with heap := h } ∧ before.Extends h ∧
      List.Forall₂ (fun p b => b.1 = .plain p.1.name ∧ Passed before h p.1.mode p.2 b.2)
        (params.zip args) bs ∧
      h.WellFormed ∧ s.heap.Extends h := by
  induction params generalizing args s with
  | nil => exact ⟨[], s.heap, rfl, grown, .nil, formed, .refl _⟩
  | cons p params ih =>
    cases args with
    | nil => exact ⟨[], s.heap, rfl, grown, .nil, formed, .refl _⟩
    | cons a args =>
      obtain ⟨first, others⟩ := List.forall_mem_cons.mp made
      obtain ⟨w, h, one, ext, between, passed⟩ := run_bound p.mode formed (grown.made first)
      obtain ⟨bs, h', rest, whole, each, after, more⟩ :=
        ih (s := { s with heap := h }) args others (grown.trans ext) between
      have stands : Passed before h' p.mode a w :=
        (passed.earlier origin grown first).later between more
      refine ⟨(.plain p.name, w) :: bs, h', ?_, whole, .cons ⟨rfl, stands⟩ each, after,
        ext.trans more⟩
      simp only [bindings_cons, Bind.bind, EStateM.bind, one, rest]
      rfl

end Host

/-! ## The frame of a call -/

theorem getElem?_of_forall₂ {α β : Type} {R : α → β → Prop} {xs : List α} {ys : List β}
    (each : List.Forall₂ R xs ys) {i : Nat} {x : α} (inside : xs[i]? = some x) :
    ∃ y, ys[i]? = some y ∧ R x y := by
  induction each generalizing i with
  | nil => cases inside
  | cons related _ ih =>
    cases i with
    | zero =>
      cases inside
      exact ⟨_, rfl, related⟩
    | succ i => exact ih inside

/-- Bindings of different symbols make a frame. -/
theorem HostM.frame_of_nodup {bs : List (Symbol × Handle)} (distinct : (bs.map (·.1)).Nodup) :
    frame bs = pure ⟨bs.reverse⟩ := by
  have symbols : (bs.map (·.1) ++ SymbolTable.empty.symbols).Nodup := by
    have none : SymbolTable.empty.symbols = [] := rfl
    rwa [none, List.append_nil]
  simp only [frame, SymbolTable.run_load symbols]
  simp only [SymbolTable.empty, List.append_nil]

theorem unmark_of_bare {key : String} (bare : key.toList.head? ≠ some baseMarker) :
    unmark key = (false, key) := by
  unfold unmark
  split
  next c cs letters =>
    have other : c ≠ baseMarker := by simpa [letters] using bare
    rw [if_neg other]
  next => rfl

/-- **Shadowing.** What the innermost frame binds to a bare name is found under it, whatever is
bound outside. -/
theorem Scope.lookup_pushed {frame : SymbolTable} {name : String} {w : Handle}
    (bare : name.toList.head? ≠ some baseMarker) (bound : frame.get? (.plain name) = some w)
    (outer : Scope) :
    ({ outer with stack := outer.stack.pushed frame } : Scope).lookup name = .ok w := by
  simp only [Scope.lookup, Scope.find?, Scope.searchOrder, unmark_of_bare bare, Stack.pushed,
    List.cons_append, List.findSome?_cons, bound]

namespace Host

variable {s : Host}

/-- Once the arguments have been passed, it remains to push the frame. -/
theorem run_bindParams {c : Callable} {args : List Handle} {bs : List (Symbol × Handle)} {t : Host}
    (run : bindings c.params args s = .ok bs t) (distinct : (bs.map (·.1)).Nodup) :
    bindParams c args s = (onScope .host (Scope.push ⟨bs.reverse⟩) >>=
      fun _ => pure (bs.map (·.2)) : HostM (List Handle)) t := by
  simp only [bindParams, Bind.bind, EStateM.bind, run, frame_of_nodup distinct]
  rfl

/-- **Parameters.** Let the parameters of a callable have different names, as those of every
callable have that can be made, and let there be an argument for each. If there is no room for one
more frame, to bind them is refused with an overflow, and nothing changes but for new cells.
Otherwise it succeeds and pushes exactly one frame, that of the parameters. Each parameter stands
for its argument as its mode says, and, unless its name is marked for the base table, is found under
its name, whatever is bound outside. -/
theorem parameters_bound {c : Callable} {args : List Handle} (formed : s.heap.WellFormed)
    (checked : Callable.checkParams c.params = .ok ()) (arity : args.length = c.arity)
    (made : ∀ a ∈ args, s.heap.Made a) :
    (s.env.stack.Full → ∃ h, s.heap.Extends h ∧ bindParams c args s =
      .error (.fault (.stackOverflow (s.env.stack.depth + 1) s.env.stack.limit))
        { s with heap := h }) ∧
    (¬ s.env.stack.Full → ∃ vs frame h t, s.heap.Extends h ∧ bindParams c args s = .ok vs t ∧
      t = { s with heap := h, env := { s.env with stack := s.env.stack.pushed frame } } ∧
      frame.symbols = (c.params.map fun p => .plain p.name).reverse ∧
      ∀ (i : Nat) (p : Param) (a : Handle), c.params[i]? = some p → args[i]? = some a →
        ∃ w, vs[i]? = some w ∧ Passed s.heap h p.mode a w ∧
          (p.name.toList.head? ≠ some baseMarker → t.scope.lookup p.name = .ok w ∧
            ∀ outer : Scope,
            ({ outer with stack := outer.stack.pushed frame } : Scope).lookup p.name = .ok w)) := by
  obtain ⟨bs, h, run, ext, each, -, -⟩ := run_bindings c.params args formed made (.refl _) formed
  have names : bs.map (·.1) = c.params.map fun p => .plain p.name := by
    have left : (c.params.zip args).map (·.1) = c.params := List.map_fst_zip arity.ge
    have same : (c.params.zip args).map (fun p => Symbol.plain p.1.name) = bs.map (·.1) :=
      Data.map_eq_of_forall₂ (fun _ _ bound => bound.1.symm) each
    rw [← same, ← left, List.map_map, left]
    rfl
  have distinct : (bs.map (·.1)).Nodup := names ▸ Callable.nodup_of_checkParams checked
  have here : { s with heap := h }.environment? .host = some s.env := rfl
  rw [run_bindParams run distinct]
  constructor
  · intro full
    have refused := run_push_of_full here full ⟨bs.reverse⟩
    exact ⟨h, ext, by simp only [Bind.bind, EStateM.bind, refused]⟩
  · intro room
    have pushed := run_push_of_not_full here room ⟨bs.reverse⟩
    refine ⟨bs.map (·.2), ⟨bs.reverse⟩, h, _, ext,
      by simp only [Bind.bind, EStateM.bind, pushed]; rfl, rfl, ?_, ?_⟩
    · rw [← names, SymbolTable.symbols, List.map_reverse]
    · intro i p a param arg
      have pair : (c.params.zip args)[i]? = some (p, a) :=
        List.getElem?_zip_eq_some.mpr ⟨param, arg⟩
      obtain ⟨⟨r, w⟩, inside, rfl, passed⟩ := getElem?_of_forall₂ each pair
      have once : (SymbolTable.mk bs.reverse).symbols.Nodup := by
        rw [SymbolTable.symbols, List.map_reverse]
        exact List.nodup_reverse.mpr distinct
      have found :=
        SymbolTable.get?_of_mem once (List.mem_reverse.mpr (List.mem_of_getElem? inside))
      refine ⟨w, by rw [List.getElem?_map, inside]; rfl, passed,
        fun bare => ⟨?_, Scope.lookup_pushed bare found⟩⟩
      exact Scope.lookup_pushed bare found s.scope

/-- A locked list is passed twice, by value and by reference. -/
theorem parameters_bound_twice :
    let s := Session.after (.bare .default)
      [.hold "list" (.unary .locked (.array 1 [.literal (.integer 5)] .refuse))]
    let c : Callable := ⟨0, "Pair", [⟨"left", .value⟩, ⟨"right", .reference⟩], .script []⟩
    (s.heap.isLocked ⟨1⟩ = true ∧ ¬ s.env.stack.Full) ∧
      ∃ vs t w, bindParams c [⟨1⟩, ⟨1⟩] s = .ok vs t ∧ t.scope.lookup "right" = .ok ⟨1⟩ ∧
      t.scope.lookup "left" = .ok w ∧ t.heap.image w = (s.heap.image ⟨1⟩).unlocked ∧
      ¬ s.heap.Made w := by
  intro s c
  have formed : s.heap.WellFormed := (reachable_after ⟨.default, true, [], none⟩ _).wellFormed
  have made : ∀ a ∈ [(⟨1⟩ : Handle), ⟨1⟩], s.heap.Made a := by decide +kernel
  have room : ¬ s.env.stack.Full := by decide +kernel
  have locked : s.heap.isLocked ⟨1⟩ = true := by decide +kernel
  obtain ⟨vs, frame, h, t, -, run, rfl, -, each⟩ :=
    (parameters_bound (c := c) formed rfl rfl made).2 room
  obtain ⟨w, -, left, found⟩ := each 0 ⟨"left", .value⟩ ⟨1⟩ rfl rfl
  obtain ⟨v, -, right, also⟩ := each 1 ⟨"right", .reference⟩ ⟨1⟩ rfl rfl
  cases left with
  | value looks new =>
    cases right with
    | reference =>
      refine ⟨⟨locked, room⟩, vs, _, w, run, (also (by decide)).1, (found (by decide)).1, looks, ?_⟩
      exact (new w (.refl w)).2

end Host

end ScriptHost
