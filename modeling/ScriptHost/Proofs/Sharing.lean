import ScriptHost.Proofs.Host.Run
import ScriptHost.Proofs.Host.Turn

/-!
# Environments that share their base table

The least clone of an environment shares the base table of its source, and nothing else. Whatever is
done to the two in turn, they go on sharing one base table, so that a marked key means the same in
both; and what is done to one is seen in the other only through that table:
`Host.minimal_clone_shares`.
-/

set_option autoImplicit false

namespace ScriptHost

open HostM Course

/-! ## Marked keys -/

namespace Scope

variable {s t : Scope} {key : String}

/-- Scopes over one base table look a marked key up in the same place. -/
theorem searchOrder_of_marked (same : s.base = t.base) (marked : (unmark key).1 = true) :
    s.searchOrder key = t.searchOrder key := by
  unfold searchOrder
  split
  · rw [same]
  next bare => rw [bare] at marked; cases marked

/-- Whether two scopes answer all questions about a key alike. -/
structure Agree (s t : Scope) (key : String) : Prop where
  lookup : s.lookup key = t.lookup key
  overload : ∀ arity, s.lookupOverload key arity = t.lookupOverload key arity
  existence : (s.find? key).isSome = (t.find? key).isSome

theorem agree_of_searchOrder (same : s.searchOrder key = t.searchOrder key) : s.Agree t key := by
  have find : s.find? key = t.find? key := by simp only [find?, same]
  have overload : ∀ arity, s.findOverload? key arity = t.findOverload? key arity := fun arity => by
    simp only [findOverload?, same]
  refine ⟨?_, fun arity => ?_, by rw [find]⟩
  · simp only [Scope.lookup, find]
  · simp only [lookupOverload, overload]

end Scope

/-! ## The least clone -/

namespace Host

variable {a b : EnvName} {s : Host} {x : Environment}

/-- The least clone is made, and shares the base table of its source. -/
theorem run_minimalClone (ne : a ≠ b) (here : s.environment? a = some x) :
    ∃ t, cloneInto x b .minimal s = .ok () t ∧ Pair a b x.base x.base t := by
  let e : Environment := ⟨x.base, .empty x.stack.limit⟩
  let u : Host := s.withEnvironment b e
  let k : Stack := ⟨[.empty], x.stack.limit, 1⟩
  have put : putEnvironment b e s = .ok () u := run_putEnvironment
  have made : u.environment? b = some e := environment?_withEnvironment_self
  -- an empty stack takes a frame whatever its limit
  have pushed : Stack.push .empty (.empty x.stack.limit) = .ok () k := Stack.push_of_room id
  have step : Scope.push .empty (u.scopeOf e) = .ok () ⟨u.base x.base, k⟩ := by
    simp only [Scope.push, Scope.onStack, scopeOf, e, pushed]
  refine ⟨u.withScope b e ⟨u.base x.base, k⟩, ?_, ⟨x.stack, ?_⟩, k, environment?_withScope_self⟩
  · have whole :
        cloneInto x b .minimal s = (do putEnvironment b e; onScope b (Scope.push .empty)) s := rfl
    rw [whole]
    simp only [Bind.bind, EStateM.bind, put, run_onScope made step]
  · rw [environment?_withScope_ne ne, environment?_withEnvironment_ne ne, here]

/-- **The least clone shares the base table, and nothing else.** It can always be made. After any
operations on the two environments in turn, both are there, with one base table, and give the same
answers about every marked key. An operation on one of them leaves the frames of the other as they
are, and with them all its answers, unless it is one that meets the base table. -/
theorem minimal_clone_shares (ne : a ≠ b) (here : s.environment? a = some x) :
    ∃ t, cloneInto x b .minimal s = .ok () t ∧ ∀ u, Turns a b t u →
      ∃ x' y', u.environment? a = some x' ∧ u.environment? b = some y' ∧ x'.base = x.base ∧
      y'.base = x.base ∧
        (∀ key, (unmark key).1 = true → (u.scopeOf x').Agree (u.scopeOf y') key) ∧
        ∀ op : EnvOp,
          ((endState (op.perform a) u).environment? b = some y' ∧
            (¬ op.MeetsBase (u.scopeOf x') →
              (endState (op.perform a) u).scopeOf y' = u.scopeOf y')) ∧
          ((endState (op.perform b) u).environment? a = some x' ∧
            (¬ op.MeetsBase (u.scopeOf y') →
              (endState (op.perform b) u).scopeOf x' = u.scopeOf x')) := by
  obtain ⟨t, cloned, pair⟩ := run_minimalClone ne here
  refine ⟨t, cloned, fun u turns => ?_⟩
  obtain ⟨⟨k, first⟩, l, second⟩ := pair.turns ne turns
  refine ⟨_, _, first, second, rfl, rfl, fun key marked => ?_, fun op => ⟨?_, ?_⟩⟩
  · exact Scope.agree_of_searchOrder (Scope.searchOrder_of_marked rfl marked)
  · obtain ⟨stays, spares⟩ := seen_from op ne first second
    exact ⟨stays, fun spared => spares fun _ => spared⟩
  · obtain ⟨stays, spares⟩ := seen_from op ne.symm second first
    exact ⟨stays, fun spared => spares fun _ => spared⟩

/-- The clone of an environment with a binding in its base table and a frame, after anything. -/
theorem minimal_clone_shares_host :
    let s := Session.after (bare .default)
      [.bind (.symbol .host "x") (.literal (.integer 1)), .command (.pushFrame .host)]
    ∃ t, cloneInto s.env (.named "clone") .minimal s = .ok () t ∧
      ∀ u, Turns .host (.named "clone") t u → ∃ x' y', u.environment? .host = some x' ∧
      u.environment? (.named "clone") = some y' ∧ x'.base = 0 ∧ y'.base = 0 ∧
        (u.scopeOf x').Agree (u.scopeOf y') (marked "x") ∧
        (endState ((EnvOp.insert "x" ⟨0⟩).perform .host) u).environment?
        (.named "clone") = some y' := by
  intro s
  have zero : s.env.base = 0 := by decide +kernel
  obtain ⟨t, cloned, shares⟩ :=
    minimal_clone_shares (s := s) (a := .host) (b := .named "clone") (x := s.env) (by decide) rfl
  refine ⟨t, cloned, fun u turns => ?_⟩
  obtain ⟨x', y', first, second, own, other, agree, turn⟩ := shares u turns
  rw [zero] at own other
  exact ⟨x', y', first, second, own, other, agree (marked "x") (by decide +kernel),
    (turn (.insert "x" ⟨0⟩)).1.1⟩

end Host

end ScriptHost
