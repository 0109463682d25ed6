import Mathlib
import ScriptHost.Proofs.Host.Cloning
import ScriptHost.Proofs.Host.Tidy

/-!
# Loading one table into another

To load a table into another one is to bind what it binds, one symbol after the other, until one is
taken. So the order matters only when there is a symbol that both tables bind. Without one, all is
bound (`SymbolTable.run_load`), and the result is the disjoint union of the two tables, whatever the
order (`Joins`). With one, the first that is met ends it (`SymbolTable.run_load_taken`): the fault
names it, the bindings that were there stay, and all others are bindings of the source (`Gains`).

A table can be loaded into itself: that succeeds exactly if it is empty.
-/

set_option autoImplicit false

namespace ScriptHost

namespace SymbolTable

variable {M : Handle → Handle → Prop} {s t u : SymbolTable} {r : Symbol}
  {bs first : List (Symbol × Handle)}

/-- The symbol is bound in both tables. -/
def Shared (s t : SymbolTable) (r : Symbol) : Prop :=
  (s.get? r).isSome = true ∧ (t.get? r).isSome = true

theorem shared_iff : Shared s t r ↔ r ∈ s.symbols ∧ r ∈ t.symbols := by
  have bound (u : SymbolTable) : (u.get? r).isSome = true ↔ r ∈ u.symbols := by
    rw [Option.isSome_iff_ne_none, Ne, get?_eq_none_iff, not_not]
  rw [Shared, bound, bound]

/-- A table with some of the bindings of `s` besides all of `t`; a value that comes from `s`
corresponds by `M` to what `s` binds. -/
structure Gains (M : Handle → Handle → Prop) (s t u : SymbolTable) : Prop where
  kept : ∀ {r v}, t.get? r = some v → u.get? r = some v
  added : ∀ {r w}, u.get? r = some w → t.get? r = some w ∨ ∃ v, s.get? r = some v ∧ M v w

/-- The disjoint union of `s` and `t`; a value that comes from `s` corresponds by `M` to what `s`
binds. -/
structure Joins (M : Handle → Handle → Prop) (s t u : SymbolTable) :
    Prop extends Gains M s t u where
  loaded : ∀ {r v}, s.get? r = some v → ∃ w, u.get? r = some w ∧ M v w
  length : u.length = s.length + t.length
  keys : u.keys = s.keys.merge t.keys

/-! ## Where a load stops -/

theorem load_append (first rest : List (Symbol × Handle)) :
    load (first ++ rest) = load first >>= fun _ => load rest :=
  List.forM_append

/-- What stands under a symbol after a list of bindings with other symbols has been put in front. -/
theorem get?_append (distinct : (first.map (·.1) ++ t.symbols).Nodup) {r : Symbol} {w : Handle} :
    (mk (first.reverse ++ t.bindings)).get? r = some w ↔ (r, w) ∈ first ∨ t.get? r = some w := by
  obtain ⟨-, below, apart⟩ := List.nodup_append.mp distinct
  have once : (mk (first.reverse ++ t.bindings)).symbols.Nodup := by
    rw [symbols, List.map_append, List.map_reverse]
    exact ((List.reverse_perm _).append_right _).nodup_iff.mpr distinct
  constructor
  · intro found
    rcases List.mem_append.mp (mem_of_get? found) with new | old
    · exact .inl (List.mem_reverse.mp new)
    · exact .inr (get?_of_mem below old)
  · intro bound
    apply get?_of_mem once
    rcases bound with new | old
    · exact List.mem_append_left _ (List.mem_reverse.mpr new)
    · exact List.mem_append_right _ (mem_of_get? old)

/-- A load ends at the first symbol that is taken. -/
theorem run_load_taken {b : Symbol × Handle} (rest : List (Symbol × Handle))
    (distinct : (first.map (·.1) ++ t.symbols).Nodup) (taken : b.1 ∈ t.symbols) :
    load (first ++ b :: rest) t = .error (.symbolTaken b.1.key) ⟨first.reverse ++ t.bindings⟩ := by
  obtain ⟨v, here⟩ := Option.ne_none_iff_exists'.mp (mt get?_eq_none_iff.mp (not_not_intro taken))
  have still : (mk (first.reverse ++ t.bindings)).get? b.1 = some v :=
    (get?_append distinct).mpr (.inr here)
  have refused : bind b.1 b.2 ⟨first.reverse ++ t.bindings⟩ = .error (.symbolTaken b.1.key)
      ⟨first.reverse ++ t.bindings⟩ := by
    simp only [bind, still]
  rw [load_append]
  simp only [Bind.bind, EStateM.bind, run_load distinct]
  show (bind b.1 b.2 >>= fun _ => load rest) _ = _
  simp only [Bind.bind, EStateM.bind, refused]

/-- **One load.** Bindings of different symbols are all bound in a table in which none is taken;
otherwise some of them are, and the fault names one that is taken. -/
theorem load_cases (distinct : (bs.map (·.1)).Nodup) (target : t.symbols.Nodup) :
    ((bs.map (·.1) ++ t.symbols).Nodup ∧ load bs t = .ok () ⟨bs.reverse ++ t.bindings⟩) ∨
    ∃ b ∈ bs, b.1 ∈ t.symbols ∧ ∃ first, first <+: bs ∧ (first.map (·.1) ++ t.symbols).Nodup ∧
      load bs t = .error (.symbolTaken b.1.key) ⟨first.reverse ++ t.bindings⟩ := by
  -- bindings that are free in the table can be put in front of it
  have free {cs : List (Symbol × Handle)} (part : cs.Sublist bs)
      (none : ∀ b ∈ cs, b.1 ∉ t.symbols) : (cs.map (·.1) ++ t.symbols).Nodup := by
    apply List.nodup_append.mpr ⟨(part.map _).nodup distinct, target, _⟩
    rintro r new _ old rfl
    obtain ⟨b, inside, rfl⟩ := List.mem_map.mp new
    exact none b inside old
  cases found : bs.find? fun b => b.1 ∈ t.symbols with
  | none =>
    have joined := free (List.Sublist.refl bs) (by simpa using found)
    exact .inl ⟨joined, run_load joined⟩
  | some b =>
    obtain ⟨taken, first, rest, rfl, before⟩ := List.find?_eq_some_iff_append.mp found
    have fresh := free (List.sublist_append_left first _) (by simpa using before)
    have taken : b.1 ∈ t.symbols := by simpa using taken
    exact .inr ⟨b, by simp, taken, first, List.prefix_append _ _, fresh,
      run_load_taken rest fresh taken⟩

/-! ## What is bound afterwards -/

/-- Bindings that mirror those of a table, put in front of another one as far as they are free. -/
theorem gains_append (mirrors : s.Mirrors M ⟨bs⟩) (clean : (bs.map (·.1)).Nodup)
    (part : first <+: bs) (distinct : (first.map (·.1) ++ t.symbols).Nodup) :
    Gains M s t ⟨first.reverse ++ t.bindings⟩ where
  kept found := (get?_append distinct).mpr (.inr found)
  added := by
    intro r w found
    rcases (get?_append distinct).mp found with new | old
    · right
      have bound : (mk bs).get? r = some w := get?_of_mem clean (part.subset new)
      have pair := mirrors.get? r
      rw [bound] at pair
      generalize s.get? r = x at pair
      cases pair with
      | some corresponds => exact ⟨_, rfl, corresponds⟩
    · exact .inl old

theorem joins_append (mirrors : s.Mirrors M ⟨bs⟩) (clean : (bs.map (·.1)).Nodup)
    (distinct : (bs.map (·.1) ++ t.symbols).Nodup) : Joins M s t ⟨bs.reverse ++ t.bindings⟩ where
  toGains := gains_append mirrors clean (List.prefix_refl bs) distinct
  loaded := by
    intro r v found
    have pair := mirrors.get? r
    rw [found] at pair
    cases bound : (mk bs).get? r with
    | none =>
      rw [bound] at pair
      cases pair
    | some w =>
      rw [bound] at pair
      cases pair with
      | some corresponds =>
        exact ⟨w, (get?_append distinct).mpr (.inl (mem_of_get? bound)), corresponds⟩
  length := by
    rw [← mirrors.length]
    simp [length]
  keys := by
    have both : (mk (bs.reverse ++ t.bindings)).symbols.Perm (s.symbols ++ t.symbols) := by
      rw [symbols, List.map_append, List.map_reverse]
      exact ((List.reverse_perm _).trans mirrors.symbols).append_right _
    have listed : (mk (bs.reverse ++ t.bindings)).keys.Perm (s.keys.merge t.keys) := by
      apply (perm_keys _).trans
      apply (both.map Symbol.key).trans
      rw [List.map_append]
      exact ((perm_keys s).symm.append (perm_keys t).symm).trans (List.merge_perm_append _).symm
    apply eq_of_sorted listed (sorted_keys _)
    exact List.pairwise_merge notAfter_trans notAfter_total _ _ (sorted_keys s) (sorted_keys t)

end SymbolTable

namespace Host

/-- A table that the host can load, or load into: a base table, or a table by name. -/
inductive Table (s : Host) : SymbolTable → Prop where
  | base (i : Nat) : Table s (s.base i)
  | named (name : String) : Table s ((Named.find name s.tables).getD .empty)

variable {s : Host} {t : SymbolTable}

theorem Table.within {V : Handle → Prop} (table : s.Table t) (within : s.Within V) :
    t.Within V := by
  cases table with
  | base i => exact within.bases i
  | named name =>
    cases found : Named.find name s.tables with
    | none => exact SymbolTable.within_empty
    | some u => exact within.tables (name, u) (Named.mem_of_find found)

theorem Table.distinct (table : s.Table t) (tidy : s.Tidy False) : t.symbols.Nodup := by
  cases table with
  | base i => exact (tidy.bases i).distinct
  | named name =>
    cases found : Named.find name s.tables with
    | none => exact List.nodup_nil
    | some u => exact (tidy.tables (name, u) (Named.mem_of_find found)).distinct

/-- What comes of a load in a host: the table is put back where it was, also if the load has
failed. -/
def putBack {α : Type} (loaded : EStateM.Result Fault SymbolTable Unit) (back : SymbolTable → Host)
    (a : α) : EStateM.Result Halt Host α :=
  match loaded with
  | .ok _ t => .ok a (back t)
  | .error f t => .error (.fault f) (back t)

section Operations

variable {kind : CloneKind} {bs : List (Symbol × Handle)} {h : Heap}

/-- A table by name is loaded into another one. -/
theorem loadTable_eq {first second : String} {source target : SymbolTable}
    (origin : source = (Named.find first s.tables).getD .empty)
    (goal : target = (Named.find second s.tables).getD .empty)
    (run : source.cloned kind s.heap = .ok bs h) :
    (Command.loadTable first second kind).perform s =
      putBack (SymbolTable.load bs target)
        (fun t => { s with heap := h, tables := Named.put second t s.tables }) .nothing := by
  subst origin goal
  simp only [Command.perform, HostM.effect, HostM.onTable, HostM.table, HostM.look, HostM.onHeap,
    Bind.bind, EStateM.bind, run]
  cases SymbolTable.load bs ((Named.find second s.tables).getD .empty) <;> rfl

/-- A base table is loaded into another one. -/
theorem loadBase_eq {i j : Nat} {source target : SymbolTable} (origin : source = s.base i)
    (goal : target = s.base j) (run : source.cloned kind s.heap = .ok bs h) :
    HostM.loadBase i j kind s =
      putBack (SymbolTable.load bs target)
        (fun t => { s with heap := h, bases := s.bases.setIfInBounds j t }) () := by
  subst origin goal
  have same : { s with heap := h }.base j = s.base j := rfl
  simp only [HostM.loadBase, HostM.look, HostM.onHeap, Bind.bind, EStateM.bind, run, same]
  cases SymbolTable.load bs (s.base j) <;> rfl

end Operations

open SymbolTable in
/-- **Loading is a disjoint union.** Take any two tables of a reachable host, or one and the same,
and load the first into the second with its bindings in any order. The values can always be had:
they are shared, or they are clones of new cells that look the same, locks included. The load
succeeds if and only if no symbol is bound in both tables, and the result is then the disjoint
union: every symbol of either table has its value, there are as many bindings as in both together,
and the keys are the keys of both, merged. If it fails, then because a symbol is taken that is bound
in both; all that was bound in the second table is bound as before, and all else comes from the
first. The operations that load a table do this in one of these orders, and put back what it
leaves. -/
theorem load_unites {source target : SymbolTable} (reachable : s.Reachable)
    (origin : s.Table source) (goal : s.Table target) (kind : CloneKind) :
    (source.ordered.Perm source.bindings ∧ ∀ bs h, clonedIn kind source.ordered s.heap = .ok bs h →
      (∀ first second, source = (Named.find first s.tables).getD .empty →
        target = (Named.find second s.tables).getD .empty →
        (Command.loadTable first second kind).perform s =
          putBack (load bs target)
            (fun t => { s with heap := h, tables := Named.put second t s.tables }) .nothing) ∧
      ∀ i j, source = s.base i → target = s.base j →
        HostM.loadBase i j kind s =
          putBack (load bs target)
            (fun t => { s with heap := h, bases := s.bases.setIfInBounds j t }) ()) ∧
    ∀ order, order.Perm source.bindings → ∃ bs h, clonedIn kind order s.heap = .ok bs h ∧
    s.heap.Extends h ∧
      ((∃ t, load bs target = .ok () t) ↔ ∀ r, ¬ Shared source target r) ∧
      (∀ t, load bs target = .ok () t → Joins (kind.Corresponds s.heap h) source target t) ∧
      ∀ f t, load bs target = .error f t →
        (f.kind = .duplicateSymbol ∧ ∃ r, Shared source target r ∧ f = .symbolTaken r.key) ∧
          Gains (kind.Corresponds s.heap h) source target t := by
  have owning := reachable.owning
  have formed := reachable.wellFormed
  have made : source.Within s.heap.Made := (origin.within owning.within).mono fun _ owned => owned.1
  have distinct := origin.distinct reachable.tidy
  refine ⟨⟨perm_ordered source, fun bs h run => ?_⟩, fun order perm => ?_⟩
  · rw [← cloned_eq] at run
    exact ⟨fun _ _ left right => loadTable_eq left right run,
      fun _ _ left right => loadBase_eq left right run⟩
  have start : (Heap.cloning s.heap).holds s.heap := ⟨.start owning.realm true, .refl _⟩
  obtain ⟨bs, h, run, ⟨-, ext⟩, -, each⟩ :=
    yields_clonedIn kind formed start fun b mem => made b (perm.mem_iff.mp mem)
  have mirrors : source.Mirrors (kind.Corresponds s.heap h) ⟨bs⟩ :=
    mirrors_of_forall₂ distinct perm each (.refl _)
  have clean : (bs.map (·.1)).Nodup := mirrors.symbols.nodup_iff.mpr distinct
  refine ⟨bs, h, run, ext, ?_⟩
  rcases load_cases clean (goal.distinct reachable.tidy)
    with ⟨joined, succeeds⟩ | ⟨b, inside, taken, first, part, fresh, fails⟩
  · have apart : ∀ r, ¬ Shared source target r := by
      intro r shared
      obtain ⟨left, right⟩ := shared_iff.mp shared
      exact (List.nodup_append.mp joined).2.2 r (mirrors.symbols.mem_iff.mpr left) r right rfl
    rw [succeeds]
    refine ⟨⟨fun _ => apart, fun _ => ⟨_, rfl⟩⟩, ?_, ?_⟩
    · rintro t ⟨⟩
      exact joins_append mirrors clean joined
    · intro f t fails
      cases fails
  · have shared : Shared source target b.1 := by
      apply shared_iff.mpr ⟨mirrors.symbols.mem_iff.mp (List.mem_map_of_mem inside), taken⟩
    rw [fails]
    refine ⟨⟨?_, fun apart => absurd shared (apart _)⟩, ?_, ?_⟩
    · rintro ⟨t, succeeds⟩
      cases succeeds
    · intro t succeeds
      cases succeeds
    · rintro f t ⟨⟩
      exact ⟨⟨rfl, b.1, shared, rfl⟩, gains_append mirrors clean part fresh⟩

open SymbolTable in
/-- A table with two symbols is loaded into another one, last binding first, and into itself by its
name, which is refused. -/
theorem load_unites_two :
    let s := Session.after (.bare .default)
      [.bind (.tablePlain "left" "x") (.literal (.integer 1)),
        .bind (.tablePlain "left" "y") (.literal (.integer 2)),
        .bind (.tablePlain "right" "z") (.literal (.integer 3))]
    let left := (Named.find "left" s.tables).getD .empty
    let right := (Named.find "right" s.tables).getD .empty
    left.symbols = [.plain "y", .plain "x"] ∧ right.symbols = [.plain "z"] ∧
      (∃ bs h t, clonedIn .deep left.bindings.reverse s.heap = .ok bs h ∧ load bs right = .ok () t ∧
        t.length = 3) ∧
      ∃ f t, (Command.loadTable "left" "left" .deep).perform s = .error (.fault f) t ∧
      f.kind = .duplicateSymbol := by
  intro s left right
  have reachable : s.Reachable := reachable_after ⟨.default, true, [], none⟩ _
  have symbols : left.symbols = [.plain "y", .plain "x"] ∧ right.symbols = [.plain "z"] := by
    decide +kernel
  have lengths : left.length = 2 ∧ right.length = 1 := by decide +kernel
  have origin : s.Table left := .named "left"
  have goal : s.Table right := .named "right"
  have name : left = (Named.find "left" s.tables).getD .empty := rfl
  clear_value s left right
  refine ⟨symbols.1, symbols.2, ?_, ?_⟩
  · obtain ⟨bs, h, run, -, succeeds, joins, -⟩ :=
      (load_unites reachable origin goal .deep).2 _ (List.reverse_perm _)
    have apart : ∀ r, ¬ Shared left right r := by
      intro r shared
      rw [shared_iff, symbols.1, symbols.2] at shared
      obtain ⟨here, there⟩ := shared
      rw [List.mem_singleton.mp there] at here
      simp at here
    obtain ⟨t, loaded⟩ := succeeds.mpr apart
    exact ⟨bs, h, t, run, loaded, by rw [(joins t loaded).length, lengths.1, lengths.2]⟩
  · obtain ⟨⟨perm, operates⟩, any⟩ := load_unites reachable origin origin .deep
    obtain ⟨bs, h, run, -, succeeds, -, fails⟩ := any _ perm
    have shared : Shared left left (.plain "x") := by
      rw [shared_iff, symbols.1]
      simp
    have performs := (operates bs h run).1 "left" "left" name name
    cases outcome : load bs left with
    | ok x t => exact absurd shared (succeeds.mp ⟨t, outcome⟩ _)
    | error f t =>
      rw [outcome] at performs
      exact ⟨f, _, performs, (fails f t outcome).1.1⟩

end Host

end ScriptHost
