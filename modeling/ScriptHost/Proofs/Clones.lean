import ScriptHost.Proofs.Separation
import ScriptHost.Proofs.Host.Cloning

/-!
# Clones of environments

A clone with bindings of its own is faithful: it has the figures of its source and answers every
question as the source does, with the very values, or with values that look the same and are made of
new cells alone. From then on the two go their own ways. What is done to one environment is not seen
in the other; and if the values are copies, neither is what is done to the values of one of them:
`Host.clone_faithful`.

For the last point every cell belongs to one of two sides. The cells that were there before the
clone belong to the side of the source, those of the clone to the other one, and what an operation
makes to the side that carries it out. Then no cell holds one of the other side (`Estate.Apart`),
and it stays so as long as each side uses its own values only.
-/

set_option autoImplicit false

namespace ScriptHost

open HostM Course

/-! ## Sides and their deeds -/

/-- The environment that is cloned, or its clone. -/
inductive Side where
  | source
  | clone
deriving DecidableEq

/-- What is given for each side. -/
def Side.pick {α : Type} (a b : α) : Side → α
  | .source => a
  | .clone => b

theorem Side.pick_injective {α : Type} {a b : α} (ne : a ≠ b) : Function.Injective (pick a b) := by
  intro x y same
  cases x <;> cases y
  · rfl
  · exact absurd same ne
  · exact absurd same.symm ne
  · rfl

/-- An operation on values, or one on an environment. -/
inductive Deed where
  | operate (op : Operation)
  | arrange (op : EnvOp)

namespace Deed

/-- Does it, with the environment of a name. -/
def perform (name : EnvName) : Deed → HostM Yield
  | .operate op => op.perform
  | .arrange op => op.perform name

/-- Whether it uses only values of a kind. A load, or a table that is pushed, brings in values from
elsewhere. -/
def Uses (V : Handle → Prop) : Deed → Prop
  | .operate op => ∀ v ∈ op.given, V v
  | .arrange (.insert _ v) | .arrange (.insertPlain _ v) => V v
  | .arrange .push | .arrange .pop | .arrange .clear => True
  | .arrange (.pushTable _) | .arrange (.load _ _) => False

end Deed

/-! ## Deeds on an environment -/

namespace Host

variable {V : Handle → Prop} {name : EnvName} {n : Nat} {s t : Host}

/-- An environment, with its base table, in which only values of a kind are bound. -/
def Binds (V : Handle → Prop) (name : EnvName) (n : Nat) (s : Host) : Prop :=
  ∃ k, s.environment? name = some ⟨n, k⟩ ∧ (s.scopeOf ⟨n, k⟩).Within V

/-- A step over the scope of an environment binds only such values if it does so in every scope. -/
theorem Binds.onScope (binds : s.Binds V name n) (step : ScopeM Unit)
    (ends : t = endState (effect (HostM.onScope name step)) s)
    (steps : ∀ x : Scope, x.Within V → (endState step x).Within V) :
    t.heap = s.heap ∧ t.Binds V name n := by
  obtain ⟨k, here, within⟩ := binds
  have after := steps _ within
  have same : t = endState (HostM.onScope name step) s := by
    rw [ends]
    show endState (HostM.onScope name step >>= fun _ => pure _) s = _
    cases run : HostM.onScope name step s with
    | ok r u => simp only [endState, Bind.bind, EStateM.bind, run]; rfl
    | error e u => simp only [endState, Bind.bind, EStateM.bind, run]
  rw [same, endState_onScope step here]
  refine ⟨heap_withEnvironment, _, environment?_withScope_self, ?_, after.frames⟩
  rw [scopeOf, base_withScope]
  split
  · exact after.base
  · exact within.base

/-- **A deed on an environment** leaves the heap as it is, and binds only values that it uses. -/
theorem Binds.arrange {op : EnvOp} (binds : s.Binds V name n) (uses : (Deed.arrange op).Uses V) :
    (endState (op.perform name) s).heap = s.heap ∧
      (endState (op.perform name) s).Binds V name n := by
  have spares : ∀ (x : Scope) (key : String), x.Spares [] key := fun _ _ => .inl rfl
  cases op with
  | insert key v =>
    exact binds.onScope (Scope.insert key v (s.heap.data v)) rfl fun x within =>
      (Scope.leads_insert within List.nil_suffix (spares x key) uses).atEnd.1.1
  | insertPlain key v =>
    exact binds.onScope (Scope.insertPlain key v) rfl fun x within =>
      (Scope.leads_insertPlain within List.nil_suffix (spares x key) uses).atEnd.1.1
  | push =>
    exact binds.onScope (Scope.push .empty) rfl fun _ within =>
      (Scope.leads_push (F := []) within List.nil_suffix SymbolTable.within_empty).atEnd.1.1
  | clear =>
    exact binds.onScope (fun x => .ok () x.clear) rfl fun _ _ =>
      ⟨SymbolTable.within_empty, fun _ mem => absurd mem List.not_mem_nil⟩
  | pop =>
    obtain ⟨k, here, within⟩ := binds
    have popped : endState (EnvOp.pop.perform name) s = s.withEnvironment name ⟨n, k.pop⟩ := by
      show endState (popFrame name >>= fun _ => pure _) s = _
      simp only [endState, popFrame, Bind.bind, EStateM.bind, run_environment here,
        run_putEnvironment]
      rfl
    rw [popped]
    refine ⟨heap_withEnvironment, k.pop, environment?_withEnvironment_self, ?_, fun f mem => ?_⟩
    · rw [scopeOf, base_withEnvironment]
      exact within.base
    · exact within.frames f (List.mem_of_mem_tail mem)
  | pushTable _ | load _ _ => exact uses.elim

/-- Whether an environment stays as it is, and so do its tables. -/
def Keeps (name : EnvName) (e : Environment) (s t : Host) : Prop :=
  s.environment? name = some e ∧ t.environment? name = some e ∧ t.scopeOf e = s.scopeOf e

theorem environment?_shell : s.shell.environment? name = s.environment? name := by
  cases name with
  | host => rfl
  | named _ => rfl

theorem scopeOf_shell {e : Environment} : s.shell.scopeOf e = s.scopeOf e := rfl

end Host

/-! ## Estates -/

/-- A host whose cells belong to the two sides. -/
structure Estate where
  host : Host
  owner : Handle → Side

namespace Estate

/-- Whether a value is there, and belongs to a side. -/
def Owns (x : Estate) (side : Side) (v : Handle) : Prop := x.host.heap.Made v ∧ x.owner v = side

/-- The estate after a deed of one side, to which belongs what has been made. -/
def after (x : Estate) (side : Side) (name : EnvName) (deed : Deed) : Estate where
  host := endState (deed.perform name) x.host
  owner v := if x.host.heap.Made v then x.owner v else side

/-- A deed of a side that uses its own values only. -/
inductive Dealing (names : Side → EnvName) (x : Estate) : Estate → Prop where
  | deal (side : Side) (deed : Deed) (uses : deed.Uses (x.Owns side)) :
    Dealing names x (x.after side (names side) deed)

/-- Any number of deeds, of the two sides in any order. -/
abbrev Dealings (names : Side → EnvName) : Estate → Estate → Prop :=
  Relation.ReflTransGen (Dealing names)

/-- Two sides that have no cell in common: a cell holds only cells of its own side. -/
structure Apart (names : Side → EnvName) (bases : Side → Nat) (x : Estate) : Prop where
  formed : x.host.heap.WellFormed
  closed : ∀ v, ∀ p ∈ x.host.heap.parts v, x.owner p = x.owner v
  binds : ∀ side, x.host.Binds (x.Owns side) (names side) (bases side)

variable {x : Estate} {side other : Side} {names : Side → EnvName} {bases : Side → Nat}
  {name : EnvName} {n : Nat}

/-- The cells of a side, and those that it may make. -/
def Reserved (x : Estate) (side : Side) (v : Handle) : Prop := x.host.heap.Made v → x.owner v = side

theorem owner_after {deed : Deed} {v : Handle} :
    (x.after side name deed).owner v = side ↔ x.Reserved side v := by
  show (if x.host.heap.Made v then x.owner v else side) = side ↔
    (x.host.heap.Made v → x.owner v = side)
  split
  next made => exact ⟨fun own _ => own, fun own => own made⟩
  next new => exact ⟨fun _ made => absurd made new, fun _ => rfl⟩

theorem owner_after_of_made {deed : Deed} {v : Handle} (made : x.host.heap.Made v) :
    (x.after side name deed).owner v = x.owner v := if_pos made

theorem Apart.region (apart : Apart names bases x) (side : Side) :
    x.host.heap.Region (x.Reserved side) where
  formed := apart.formed
  fresh _ new made := absurd made new
  closed v own p part _ := (apart.closed v p part).trans (own (Heap.made_of_part part))

/-- **A deed** changes only cells of its side, and binds only values of its side, in its own
environment. -/
theorem Apart.deed {deed : Deed} (apart : Apart names bases x) (uses : deed.Uses (x.Owns side)) :
    Heap.Changes (x.Reserved side) x.host.heap (x.after side (names side) deed).host.heap ∧
      (x.after side (names side) deed).host.Binds (x.Owns side) (names side) (bases side) ∧
      ∀ name e, names side ≠ name → e.base ≠ bases side → x.host.environment? name = some e →
        Host.Keeps name e x.host (x.after side (names side) deed).host := by
  obtain ⟨k, here, within⟩ := apart.binds side
  cases deed with
  | operate op =>
    have leads := op.leads (apart.region side).realm fun v mem =>
      ⟨(uses v mem).1, fun _ => (uses v mem).2⟩
    obtain ⟨-, changes, rest⟩ := leads.atEnd
    have keeps : ∀ name e, x.host.environment? name = some e →
        Host.Keeps name e x.host (endState op.perform x.host) := by
      intro name e there
      refine ⟨there, ?_, ?_⟩
      · rw [← Host.environment?_shell, rest, Host.environment?_shell, there]
      · rw [← Host.scopeOf_shell, rest, Host.scopeOf_shell]
    refine ⟨changes, ⟨k, (keeps _ _ here).2.1, ?_⟩, fun name e _ _ => keeps name e⟩
    show ((endState op.perform x.host).scopeOf _).Within _
    rw [(keeps _ _ here).2.2]
    exact within
  | arrange op =>
    obtain ⟨heap, binds⟩ := (apart.binds side).arrange uses
    refine ⟨?_, binds, fun name e ne different there => ?_⟩
    · show Heap.Changes _ x.host.heap (endState (op.perform (names side)) x.host).heap
      rw [heap]
    · obtain ⟨stays, spares⟩ := Host.seen_from op ne here there
      exact ⟨there, stays, spares fun same => absurd same different⟩

/-- **One deed** leaves the sides apart. -/
theorem Apart.step {deed : Deed} (apart : Apart names bases x) (uses : deed.Uses (x.Owns side))
    (named : Function.Injective names) (based : Function.Injective bases) :
    Apart names bases (x.after side (names side) deed) := by
  obtain ⟨changes, own, others⟩ := apart.deed uses
  have owns : ∀ y v, x.Owns y v → (x.after side (names side) deed).Owns y v := fun y v owned =>
    ⟨changes.made owned.1, (owner_after_of_made owned.1).trans owned.2⟩
  have region := changes.region (apart.region side)
  refine ⟨region.formed, fun v p part => ?_, fun y => ?_⟩
  · by_cases reserved : x.Reserved side v
    · rw [owner_after.mpr reserved, owner_after.mpr (region.closed v reserved p part)]
    · -- a cell of the other side is as it was
      have made : x.host.heap.Made v := by
        by_contra new
        exact reserved fun made => absurd made new
      have same := changes.cell_of_not_owned (apart.region side).fresh reserved
      rw [Heap.parts_congr same] at part
      rw [owner_after_of_made made, owner_after_of_made (apart.formed.parts v p part)]
      exact apart.closed v p part
  · by_cases same : y = side
    · subst same
      obtain ⟨k, here, within⟩ := own
      exact ⟨k, here, within.mono (owns y)⟩
    · obtain ⟨k, here, within⟩ := apart.binds y
      obtain ⟨-, stays, scope⟩ := others _ _ (named.ne (Ne.symm same)) (based.ne same) here
      refine ⟨k, stays, ?_⟩
      rw [scope]
      exact within.mono (owns y)

/-- **Any deeds** do. -/
theorem Apart.dealings {z : Estate} (apart : Apart names bases x) (dealings : Dealings names x z)
    (named : Function.Injective names) (based : Function.Injective bases) :
    Apart names bases z := by
  induction dealings with
  | refl => exact apart
  | tail _ dealing ih =>
    obtain ⟨side, deed, uses⟩ := dealing
    exact ih.step uses named based

/-- The parts of a cell belong to its side. -/
theorem Apart.inherited {v : Handle} (apart : Apart names bases x) (owned : x.Owns side v) :
    ∀ p ∈ x.host.heap.parts v, x.Owns side p :=
  fun p part => ⟨apart.formed.parts v p part, (apart.closed v p part).trans owned.2⟩

/-- What belongs to the other side looks as before. -/
theorem Apart.image_of_other {deed : Deed} {v : Handle} (apart : Apart names bases x)
    (uses : deed.Uses (x.Owns side)) (ne : side ≠ other) (owned : x.Owns other v) :
    (x.after side (names side) deed).host.heap.image v = x.host.heap.image v := by
  obtain ⟨changes, -⟩ := apart.deed uses
  apply Heap.image_congr apart.formed (changes.region (apart.region side)).formed
    (S := x.Owns other)
  · exact fun u => apart.inherited
  · intro u own
    refine changes.cell_of_not_owned (apart.region side).fresh fun reserved => ne ?_
    rw [← reserved own.1, own.2]
  · exact owned

end Estate

/-! ## Clones -/

namespace Host

variable {kind : CloneKind} {a b : EnvName} {s : Host} {e : Environment}

/-- The sides when a clone has just been made: what was there before it belongs to the source. -/
def parted (s t : Host) : Estate := ⟨t, fun v => if s.heap.Made v then .source else .clone⟩

/-- After a deep clone the sides are apart. -/
theorem parted_apart {c : Environment} {t : Host} (reachable : s.Reachable)
    (cloned : (Heap.cloning s.heap).holds t.heap) (source : Keeps a e s t)
    (clone : t.environment? b = some c)
    (mirrors : (s.scopeOf e).Mirrors (CloneKind.deep.Corresponds s.heap t.heap) (t.scopeOf c)) :
    Estate.Apart (Side.pick a b) (Side.pick e.base c.base) (parted s t) := by
  obtain ⟨copying, ext⟩ := cloned
  obtain ⟨here, still, scope⟩ := source
  have ofSource : ∀ v, s.heap.Made v → (parted s t).Owns .source v :=
    fun v made => ⟨ext.made made, if_pos made⟩
  refine ⟨copying.region.formed, fun v p part => ?_, fun side => ?_⟩
  · show (if s.heap.Made p then Side.source else .clone) = if s.heap.Made v then Side.source
      else .clone
    by_cases made : s.heap.Made v
    · have part : p ∈ t.heap.parts v := part
      rw [Heap.parts_congr (ext.cell v made)] at part
      rw [if_pos made, if_pos (reachable.wellFormed.parts v p part)]
    · have new : ¬ s.heap.Made p := Nat.not_lt.mpr (copying.closed v (Nat.not_lt.mp made) p part)
      rw [if_neg made, if_neg new]
  · cases side with
    | source =>
      have within : (s.scopeOf e).Within s.heap.Made :=
        Within.environment? (reachable.owning.within.mono fun _ owned => owned.1) here
      refine ⟨e.stack, still, ?_⟩
      show (t.scopeOf e).Within _
      rw [scope]
      exact within.mono ofSource
    | clone =>
      have tidy := reachable.tidy
      refine ⟨c.stack, clone, mirrors.within (tidy.bases _).distinct ?_ ?_⟩
      · exact fun f mem => ((tidy.environment? here).stack.frames f mem).distinct
      · intro v w corresponds
        obtain ⟨made, new⟩ := corresponds.2 w (.refl w)
        exact ⟨made, if_neg new⟩

/-- **A clone is faithful, and goes its own way.** It can always be made, and making it changes
neither its source nor any cell. It resembles its source. After any operations on the two
environments in turn, each of them is there, and an operation on one of them leaves the other as it
is. If the clone is deep, then each of the two environments leads to values of its own side alone,
and after any deeds of the two sides, whatever is done on one side leaves the other environment as
it is, with every value that is bound in it. -/
theorem clone_faithful (reachable : s.Reachable) (ne : a ≠ b) (here : s.environment? a = some e)
    (whole : kind ≠ .minimal) :
    ∃ t c, cloneInto e b kind s = .ok () t ∧ Keeps a e s t ∧ t.environment? b = some c ∧
      (∀ v, s.heap.Made v → t.heap.cell v = s.heap.cell v) ∧
      (s.scopeOf e).Resembles (kind.Corresponds s.heap t.heap) (t.scopeOf c) ∧
      (∀ u, Turns a b t u → ∀ op : EnvOp,
        (∃ y, Keeps b y u (endState (op.perform a) u)) ∧
        ∃ x, Keeps a x u (endState (op.perform b) u)) ∧
      (kind = .deep → ∀ x, Estate.Dealings (Side.pick a b) (parted s t) x →
        ∀ side other deed, side ≠ other → deed.Uses (x.Owns side) →
          ∃ y, Keeps (Side.pick a b other) y x.host (x.after side (Side.pick a b side) deed).host ∧
            (x.host.scopeOf y).Within fun v => (∀ w, x.host.heap.Reaches v w → x.Owns other w) ∧
              (x.after side (Side.pick a b side) deed).host.heap.image v =
                x.host.heap.image v) := by
  obtain ⟨t, k, cloned, ⟨copying, ext⟩, source, clone, scope, old, mirrors⟩ :=
    run_clone reachable ne here whole
  have pair : Pair a b e.base s.bases.size t := ⟨⟨e.stack, source⟩, k, clone⟩
  refine ⟨t, _, cloned, ⟨here, source, scope⟩, clone, ext.cell, mirrors.resembles,
    fun u turns op => ?_, ?_⟩
  · obtain ⟨⟨k, first⟩, l, second⟩ := pair.turns ne turns
    obtain ⟨stays, spares⟩ := seen_from op ne first second
    obtain ⟨stays', spares'⟩ := seen_from op ne.symm second first
    exact ⟨⟨_, second, stays, spares fun same => absurd same old.ne'⟩,
      _, first, stays', spares' fun same => absurd same old.ne⟩
  · rintro rfl x dealings side other deed different uses
    have apart := parted_apart reachable ⟨copying, ext⟩ ⟨here, source, scope⟩ clone mirrors
    have named := Side.pick_injective ne
    have based := Side.pick_injective old.ne
    have now := apart.dealings dealings named based
    obtain ⟨k, there, within⟩ := now.binds other
    obtain ⟨-, -, others⟩ := now.deed uses
    refine ⟨_, others _ _ (named.ne different) (based.ne different.symm) there, ?_⟩
    exact within.mono fun v owned =>
      ⟨fun w reach => reach.closed (fun _ => now.inherited) owned,
        now.image_of_other uses different owned⟩

/-- A deep clone of an environment with a list under a frame, whose own list is then locked. -/
theorem clone_faithful_list :
    let list := Expr.array 1 [.literal (.integer 5)] .refuse
    let s := Session.after (.bare .default) [.bind (.symbol .host "list") list,
      .command (.pushFrame .host)]
    (s.scopeOf s.env).lookup "list" = .ok ⟨1⟩ ∧
      ∃ t c w, cloneInto s.env (.named "clone") .deep s = .ok () t ∧ t.environment?
        (.named "clone") = some c ∧ c.stack.depth = 1 ∧ (t.scopeOf c).lookup "list" = .ok w ∧
      t.heap.image w = s.heap.image ⟨1⟩ ∧ ¬ s.heap.Made w ∧
      (endState (Operation.unary .lock ⟨1⟩).perform t).heap.image w = t.heap.image w := by
  intro list s
  have reachable : s.Reachable := reachable_after ⟨.default, true, [], none⟩ _
  have bound : (s.scopeOf s.env).find? "list" = some ⟨1⟩ := by decide +kernel
  have depth : s.env.stack.depth = 1 := by decide +kernel
  clear_value s
  have known : (s.scopeOf s.env).lookup "list" = .ok ⟨1⟩ := by simp only [Scope.lookup, bound]
  obtain ⟨t, c, cloned, ⟨-, source, scope⟩, clone, -, resembles, -, apart⟩ :=
    clone_faithful (a := .host) (b := .named "clone") reachable (by decide) rfl
      (show CloneKind.deep ≠ .minimal by decide)
  have answer := resembles.lookup "list"
  rw [known] at answer
  generalize there : (t.scopeOf c).lookup "list" = found at answer
  cases answer with
  | @found _ w corresponds =>
    have own : (parted s t).Owns .source ⟨1⟩ := by
      obtain ⟨y, ⟨same, -⟩, within⟩ :=
        apart rfl _ .refl .clone .source (.arrange .push) (by decide) trivial
      obtain rfl : s.env = y := Option.some.inj (source.symm.trans same)
      have within : (t.scopeOf s.env).Within _ := within
      rw [scope] at within
      exact (within.lookup known).1 _ (.refl _)
    obtain ⟨y, ⟨same, -⟩, within⟩ :=
      apart rfl _ .refl .source .clone (.operate (.unary .lock ⟨1⟩)) (by decide)
      (by simpa [Deed.Uses, Operation.given] using own)
    obtain rfl : c = y := Option.some.inj (clone.symm.trans same)
    exact ⟨known, t, c, w, cloned, clone, resembles.depth.trans depth, there, corresponds.1,
      (corresponds.2 w (.refl w)).2, (within.lookup there).2⟩

end Host

end ScriptHost
