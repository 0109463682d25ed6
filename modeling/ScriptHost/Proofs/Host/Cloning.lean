import ScriptHost.Proofs.Host.Tidy
import ScriptHost.Proofs.Host.Turn
import ScriptHost.Proofs.Scope.Mirror

/-!
# Cloning an environment

A clone with bindings of its own is made table by table: the base table of the source is loaded into
a new one, and every frame is duplicated and pushed, the outermost first. In a reachable state
nothing of that fails: the symbols of a table are different ones, and the source has no more frames
than its limit allows. The clone mirrors its source (`Host.run_clone`), by the values themselves or
by copies of them that keep the locks.
-/

set_option autoImplicit false

namespace ScriptHost

open HostM Course

/-! ## Values of a clone -/

/-- How a value of a clone stands for one of its source, in the heap after and before the clone was
made: it is that value, or it looks like it and is made of new cells alone. -/
def CloneKind.Corresponds (kind : CloneKind) (before after : Heap) (v w : Handle) : Prop :=
  match kind with
  | .deep =>
    after.image w = before.image v ∧ ∀ u, after.Reaches w u → after.Made u ∧ ¬ before.Made u
  | .minimal | .shallow => w = v

namespace Heap

variable {h₀ h h' : Heap} {kind : CloneKind} {v w : Handle}

/-- Heaps to which clones have been added since there was `h₀`. -/
def cloning (h₀ : Heap) : Course Heap where
  holds h := Copying False (fun _ => True) true h₀.size h ∧ h₀.Extends h
  goes := Extends
  refl := .refl
  trans := .trans

/-- The image of a value stays the same while more cells are made. -/
theorem Extends.image (ext : h.Extends h') (formed : h.WellFormed) (made : h.Made v) :
    h'.image v = h.image v := by
  have ends : h'.EndsIn h.levels v := (formed.endsIn v).congr (fun u _ => formed.parts u)
    (fun u made => parts_congr (ext.cell u made)) made
  have deeper : h'.image v = h'.imageTo h.levels v := imageTo_eq ends (Nat.succ_le_succ ext.size_le)
  rw [deeper]
  exact imageTo_congr (fun u _ => formed.parts u) ext.cell made

/-- What stands for a value goes on to do so while more cells are made. -/
theorem corresponds_extends (corresponds : kind.Corresponds h₀ h v w) (formed : h.WellFormed)
    (ext : h.Extends h') : kind.Corresponds h₀ h' v w := by
  cases kind with
  | minimal | shallow => exact corresponds
  | deep =>
    obtain ⟨image, new⟩ := corresponds
    have made : h.Made w := (new w (.refl w)).1
    refine ⟨?_, fun u reach => ?_⟩
    · rw [← image]
      exact ext.image formed made
    · have there := new u (formed.reaches_of_extends ext reach made)
      exact ⟨ext.made there.1, there.2⟩

/-- A deep clone of a value that was there. -/
theorem yields_cloneDeep (formed : h₀.WellFormed) (held : (cloning h₀).holds h) (made : h₀.Made v) :
    (cloning h₀).Yields (HeapM.cloneWith .deep v) h fun c h' =>
      CloneKind.deep.Corresponds h₀ h' v c := by
  obtain ⟨state, ext⟩ := held
  obtain ⟨c, h', run, after, ⟨-, further⟩, copy⟩ :=
    yields_copyTo state (ext.made made) (state.region.formed.endsIn v)
  refine ⟨c, h', run, ⟨after, ext.trans further⟩, further, ?_, fun u reach => ?_⟩
  · rw [← ext.image formed made]
    exact copy.image_eq after.region.formed
  · exact ⟨after.region.formed.made_of_reaches reach copy.made,
      Nat.not_lt.mpr (after.new_of_reaches reach copy.new)⟩

end Heap

namespace SymbolTable

variable {h₀ h : Heap} {kind : CloneKind} {t : SymbolTable}

/-- Bindings in some order, with their values shared, or with clones that keep the locks. -/
def clonedIn (kind : CloneKind) (order : List (Symbol × Handle)) : HeapM (List (Symbol × Handle)) :=
  match kind with
  | .deep => order.mapM fun (s, v) => do return (s, ← HeapM.cloneWith .deep v)
  | .minimal | .shallow => return order

theorem cloned_eq (kind : CloneKind) (t : SymbolTable) :
    t.cloned kind = clonedIn kind t.ordered := by cases kind <;> rfl

/-- Bindings are cloned one by one. -/
theorem yields_clonedIn (kind : CloneKind) (formed : h₀.WellFormed)
    (held : (Heap.cloning h₀).holds h) {order : List (Symbol × Handle)}
    (made : ∀ b ∈ order, h₀.Made b.2) :
    (Heap.cloning h₀).Yields (clonedIn kind order) h fun bs h' =>
      List.Forall₂ (fun b c => b.1 = c.1 ∧ kind.Corresponds h₀ h' b.2 c.2) order bs := by
  cases kind with
  | minimal | shallow => exact .pure held (List.forall₂_same.mpr fun _ _ => ⟨rfl, rfl⟩)
  | deep =>
    exact Data.mapM_pairs_yields (C := Heap.cloning h₀) (f := HeapM.cloneWith .deep)
      (M := fun v c h' => CloneKind.deep.Corresponds h₀ h' v c)
      (fun _ _ _ _ held corresponds ext =>
        Heap.corresponds_extends corresponds held.1.region.formed ext) held
      fun b mem t held _ => Heap.yields_cloneDeep formed held (made b mem)

theorem yields_cloned (kind : CloneKind) (formed : h₀.WellFormed) (held : (Heap.cloning h₀).holds h)
    (made : t.Within h₀.Made) :
    (Heap.cloning h₀).Yields (t.cloned kind) h fun bs h' =>
      List.Forall₂ (fun b c => b.1 = c.1 ∧ kind.Corresponds h₀ h' b.2 c.2) t.ordered bs := by
  rw [cloned_eq]
  exact yields_clonedIn kind formed held fun b mem => made b ((perm_ordered t).mem_iff.mp mem)

/-- A duplicate of a table mirrors it. -/
theorem yields_duplicate (kind : CloneKind) (formed : h₀.WellFormed)
    (held : (Heap.cloning h₀).holds h) (distinct : t.symbols.Nodup) (made : t.Within h₀.Made) :
    (Heap.cloning h₀).Yields (t.duplicate kind) h fun u h' =>
      t.Mirrors (kind.Corresponds h₀ h') u :=
  (yields_cloned kind formed held made).bind fun _ _ held _ each =>
    .pure held (mirrors_of_forall₂ distinct (perm_ordered t) each (.refl _))

/-- A clone of a table stays one while more cells are made. -/
theorem Mirrors.extends {h' : Heap} {u : SymbolTable}
    (mirrors : t.Mirrors (kind.Corresponds h₀ h) u) (formed : h.WellFormed) (ext : h.Extends h') :
    t.Mirrors (kind.Corresponds h₀ h') u :=
  mirrors.mono fun _ _ _ corresponds => Heap.corresponds_extends corresponds formed ext

end SymbolTable

namespace Host

variable {h₀ : Heap} {kind : CloneKind} {s : Host} {b : EnvName} {e : Environment}

/-- A base table is loaded into an empty one. -/
theorem run_loadBase (kind : CloneKind) {source target : Nat} (formed : h₀.WellFormed)
    (held : (Heap.cloning h₀).holds s.heap) (distinct : (s.base source).symbols.Nodup)
    (made : (s.base source).Within h₀.Made) (empty : s.base target = .empty) :
    ∃ h table, loadBase source target kind s =
      .ok () { s with heap := h, bases := s.bases.setIfInBounds target table } ∧
      (Heap.cloning h₀).holds h ∧ s.heap.Extends h ∧
      (s.base source).Mirrors (kind.Corresponds h₀ h) table := by
  obtain ⟨bs, h, cloned, after, ext, each⟩ := SymbolTable.yields_cloned kind formed held made
  have same : (s.base source).ordered.map (·.1) = bs.map (·.1) :=
    Data.map_eq_of_forall₂ (fun _ _ pair => pair.1) each
  have different : (bs.map (·.1) ++ SymbolTable.empty.symbols).Nodup := by
    rw [← same, SymbolTable.symbols, SymbolTable.empty, List.map_nil, List.append_nil]
    exact ((SymbolTable.perm_ordered _).map _).nodup_iff.mpr distinct
  have loaded := SymbolTable.run_load different
  refine ⟨h, ⟨bs.reverse ++ SymbolTable.empty.bindings⟩, ?_, after, ext,
    SymbolTable.mirrors_of_forall₂ distinct (SymbolTable.perm_ordered _) each ?_⟩
  · have first : onHeap ((s.base source).cloned kind) s = .ok bs { s with heap := h } := by
      simp only [onHeap, cloned]
    have still : Host.base { s with heap := h } target = .empty := empty
    simp only [loadBase, look, Bind.bind, EStateM.bind, first, still, loaded]
    rfl
  · simp [SymbolTable.empty]

/-- **Frames are duplicated and pushed** one after the other, as long as there is room. -/
theorem run_pushFrames (kind : CloneKind) {frames : List SymbolTable} (formed : h₀.WellFormed)
    (held : (Heap.cloning h₀).holds s.heap)
    (known : ∀ f ∈ frames, f.symbols.Nodup ∧ f.Within h₀.Made) (here : s.environment? b = some e)
    (room : 0 < e.stack.limit → e.stack.depth + frames.length ≤ e.stack.limit) :
    ∃ t copies k, (frames.forM fun frame => do
          let copy ← onHeap (frame.duplicate kind)
          onScope b (Scope.push copy)) s = .ok () t ∧
      (Heap.cloning h₀).holds t.heap ∧ t.environment? b = some ⟨e.base, k⟩ ∧
      t.base e.base = s.base e.base ∧
      s.heap.Extends t.heap ∧ k.frames = copies.reverse ++ e.stack.frames ∧
      k.limit = e.stack.limit ∧
      List.Forall₂ (SymbolTable.Mirrors (kind.Corresponds h₀ t.heap)) frames copies := by
  induction frames generalizing s e with
  | nil => exact ⟨s, [], e.stack, rfl, held, here, rfl, .refl _, rfl, rfl, .nil⟩
  | cons f frames ih =>
    obtain ⟨distinct, made⟩ := known f (by simp)
    obtain ⟨copy, h, duplicated, after, ext, mirrors⟩ :=
      SymbolTable.yields_duplicate kind formed held distinct made
    have first : onHeap (f.duplicate kind) s = .ok copy { s with heap := h } := by
      simp only [onHeap, duplicated]
    let k : Stack :=
      { e.stack with
        frames := copy :: e.stack.frames
        attained := max e.stack.attained (e.stack.depth + 1) }
    have short : 0 < e.stack.limit → e.stack.depth + (frames.length + 1) ≤ e.stack.limit := room
    have pushed : Stack.push copy e.stack = .ok () k := Stack.push_of_room fun positive => by
      have := short positive; omega
    let u : Host := Host.withScope { s with heap := h } b e ⟨s.base e.base, k⟩
    have second : onScope b (Scope.push copy) { s with heap := h } = .ok () u :=
      run_onScope here (by simp only [Scope.push, Scope.onStack, scopeOf, pushed]; rfl)
    have base : u.base e.base = s.base e.base := by
      rw [base_withScope]
      split <;> rfl
    have heap : u.heap = h := heap_withEnvironment
    have still : 0 < k.limit → k.depth + frames.length ≤ k.limit := by
      intro positive
      show e.stack.frames.length + 1 + frames.length ≤ e.stack.limit
      have := short positive
      rw [Stack.depth] at this
      omega
    obtain ⟨t, copies, l, rest, held, there, bases, further, shape, limit, each⟩ :=
      ih (s := u) (e := ⟨e.base, k⟩) (heap ▸ after) (fun f mem => known f (by simp [mem]))
        environment?_withScope_self still
    rw [heap] at further
    refine ⟨t, copy :: copies, l, ?_, held, there, bases.trans base, ext.trans further, ?_, limit,
      .cons ?_ each⟩
    · have whole : ∀ step : SymbolTable → HostM Unit,
          (f :: frames).forM step s = (step f >>= fun _ => frames.forM step) s := fun _ => rfl
      rw [whole]
      simp only [Bind.bind, EStateM.bind, first, second]
      exact rest
    · rw [shape]
      simp [k]
    · exact mirrors.extends after.1.region.formed further

/-! ## Environments -/

variable {a : EnvName}

/-- What is known of the environments of a host holds of each by its name. -/
theorem Tidy.environment? {strict : Prop} (tidy : s.Tidy strict)
    (here : s.environment? a = some e) : e.Tidy strict s.heap s.bases.size := by
  cases a with
  | host =>
    cases here
    exact tidy.env
  | named n => exact tidy.environments (n, e) (Named.mem_of_find here)

theorem Within.environment? {V : Handle → Prop} (within : s.Within V)
    (here : s.environment? a = some e) : (s.scopeOf e).Within V := by
  refine ⟨within.bases e.base, ?_⟩
  cases a with
  | host =>
    cases here
    exact within.frames
  | named n => exact within.environments (n, e) (Named.mem_of_find here)

/-- An environment is loaded into one without bindings and frames, which then mirrors it. -/
theorem run_loadInto (kind : CloneKind) {n : Nat} (formed : h₀.WellFormed)
    (held : (Heap.cloning h₀).holds s.heap) (own : e.Tidy False s.heap s.bases.size)
    (base : (s.base e.base).symbols.Nodup) (within : (s.scopeOf e).Within h₀.Made)
    (here : s.environment? b = some ⟨n, .empty e.stack.limit⟩) (inside : n < s.bases.size)
    (empty : s.base n = .empty) :
    ∃ t k, loadInto e b kind s = .ok () t ∧ (Heap.cloning h₀).holds t.heap ∧
      t.environment? b = some ⟨n, k⟩ ∧
      (s.scopeOf e).Mirrors (kind.Corresponds h₀ t.heap) (t.scopeOf ⟨n, k⟩) := by
  obtain ⟨h, table, loaded, held, -, mirrors⟩ :=
    run_loadBase kind formed held base within.base empty
  let u : Host := { s with heap := h, bases := s.bases.setIfInBounds n table }
  have filled : u.base n = table := by
    have set := base_setBase { s with heap := h } n n table
    rwa [if_pos ⟨rfl, inside⟩] at set
  have known : ∀ f ∈ e.stack.frames.reverse, f.symbols.Nodup ∧ f.Within h₀.Made := by
    intro f mem
    have mem := List.mem_reverse.mp mem
    exact ⟨(own.stack.frames f mem).distinct, within.frames f mem⟩
  have room : 0 < e.stack.limit →
      (Stack.empty e.stack.limit).depth + e.stack.frames.reverse.length ≤ e.stack.limit := by
    intro positive
    have bounded : e.stack.frames.length ≤ e.stack.limit := own.stack.bounded positive
    simpa [Stack.depth, Stack.empty] using bounded
  obtain ⟨t, copies, k, pushed, after, there, bases, ext, shape, limit, each⟩ :=
    run_pushFrames kind (s := u) (e := ⟨n, .empty e.stack.limit⟩) formed held known here room
  refine ⟨t, k, ?_, after, there, ?_, ?_, limit⟩
  · simp only [loadInto, Bind.bind, EStateM.bind, run_environment here, loaded]
    exact pushed
  · show (s.base e.base).Mirrors _ (t.base n)
    rw [bases, filled]
    exact mirrors.extends held.1.region.formed ext
  · show List.Forall₂ _ e.stack.frames k.frames
    have reversed := List.rel_reverse each
    rw [List.reverse_reverse] at reversed
    rw [shape]
    simpa [Stack.empty] using reversed

/-- **Clones are made, and mirror their source.** The source stays as it is, and the clone has a
base table of its own. -/
theorem run_clone (reachable : s.Reachable) (ne : a ≠ b) (here : s.environment? a = some e)
    (whole : kind ≠ .minimal) :
    ∃ t k, cloneInto e b kind s = .ok () t ∧ (Heap.cloning s.heap).holds t.heap ∧
      t.environment? a = some e ∧ t.environment? b = some ⟨s.bases.size, k⟩ ∧
      t.scopeOf e = s.scopeOf e ∧ e.base < s.bases.size ∧
      (s.scopeOf e).Mirrors (kind.Corresponds s.heap t.heap) (t.scopeOf ⟨s.bases.size, k⟩) := by
  have tidy := reachable.tidy
  have own := tidy.environment? here
  have within : (s.scopeOf e).Within s.heap.Made :=
    Within.environment? (reachable.owning.within.mono fun _ owned => owned.1) here
  have start : (Heap.cloning s.heap).holds s.heap := ⟨.start reachable.owning.realm true, .refl _⟩
  let n := s.bases.size
  let u : Host :=
    { s with bases := s.bases.push .empty }.withEnvironment b ⟨n, .empty e.stack.limit⟩
  have heap : u.heap = s.heap := heap_withEnvironment
  have size : u.bases.size = n + 1 := by simp [u, n]
  have base : ∀ i, u.base i = s.base i := fun i => by rw [base_withEnvironment, base_pushBase]
  have scope : u.scopeOf e = s.scopeOf e := by rw [scopeOf, scopeOf, base]
  have made : u.environment? b = some ⟨n, .empty e.stack.limit⟩ := environment?_withEnvironment_self
  have empty : u.base n = .empty := by
    rw [base]
    simp [Host.base, n]
  have own' : e.Tidy False u.heap u.bases.size := by
    rw [heap, size]
    exact ⟨own.base.trans (Nat.lt_succ_self n), own.stack⟩
  obtain ⟨t, k, loaded, after, there, mirrors⟩ :=
    run_loadInto kind (s := u) reachable.wellFormed (heap ▸ start) own'
    (by rw [base]; exact (tidy.bases _).distinct) (by rw [scope]; exact within) made
      (by omega) empty
  -- what is loaded into the clone is seen nowhere else
  have leads : (turning b n False).Leads (loadInto e b kind) u fun _ _ => True :=
    turning_loadInto ⟨_, made⟩ not_false
  obtain ⟨-, ⟨others, bases⟩, -⟩ := leads.ok loaded
  refine ⟨t, k, ?_, after, ?_, there, ?_, own.base, scope ▸ mirrors⟩
  · have run : cloneInto e b kind s =
        (do putEnvironment b (← newEnvironment e.stack.limit); loadInto e b kind) s := by
      cases kind with
      | minimal => exact absurd rfl whole
      | shallow => rfl
      | deep => rfl
    rw [run]
    simp only [Bind.bind, EStateM.bind, newEnvironment, run_putEnvironment]
    exact loaded
  · exact others a e ne (by rw [environment?_withEnvironment_ne ne]; exact here)
  · have other : e.base ≠ n := own.base.ne
    rw [scopeOf, scopeOf, bases e.base fun same => absurd same other, base]

end Host

end ScriptHost
