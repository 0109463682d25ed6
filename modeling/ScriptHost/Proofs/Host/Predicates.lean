import Mathlib.Logic.Relation
import ScriptHost.Proofs.Host.Routines

/-!
# Predicates of a program

A sort or a search asks a predicate of the program about two values at a time. There are two ways to
know something about what comes of that.

The predicate may be a good one: `Decides test among before s` says that, from the state `s` on,
however often it has been asked about values of `among`, it answers `before`, and that nothing
changes by it (`Host.Still`): values are made, and the stack may have been deeper for a while. What
asks a good predicate is then followed by its answers, along the course `deciding`.

Or it may be any: `Asks test most m s` says of a step that it changes nothing but what the predicate
changes, asks it `most` times at most, fails as the predicate does if that fails, and gives up only
if the predicate does.
-/

set_option autoImplicit false

namespace ScriptHost

open HostM

section Always

variable {α : Type} {m : HostM α} {after : Host → Host} {s t : Host}

theorem always_of_ok {a : α} (ran : m s = .ok a t) : always m after s = .ok a (after t) := by
  simp only [always, ran]

theorem always_of_error {e : Halt} (ran : m s = .error e t) :
    always m after s = .error e (after t) := by simp only [always, ran]

end Always

/-! ## Hosts in which nothing has changed -/

namespace Host

/-- The host with another heap, and with another greatest depth of the stack. -/
def grown (s : Host) (h : Heap) (attained : Nat) : Host :=
  { s with heap := h, env := { s.env with stack := { s.env.stack with attained := attained } } }

/-- Nothing has changed, but values may have been made, and the stack may have been deeper. -/
def Still (s t : Host) : Prop := ∃ h attained, s.heap.Extends h ∧ t = s.grown h attained

variable {s t u : Host} {k : Nat}

theorem Still.refl (s : Host) : s.Still s := ⟨s.heap, s.env.stack.attained, .refl _, rfl⟩

theorem Still.trans (first : s.Still t) (second : t.Still u) : s.Still u := by
  obtain ⟨h, k, extended, rfl⟩ := first
  obtain ⟨h', k', further, rfl⟩ := second
  exact ⟨h', k', extended.trans further, rfl⟩

theorem Still.extends (still : s.Still t) : s.heap.Extends t.heap := by
  obtain ⟨h, k, extended, rfl⟩ := still
  exact extended

/-- Where nothing has changed there is as much room as there was. -/
theorem Still.ready (still : s.Still t) (ready : s.Ready k) : t.Ready k := by
  obtain ⟨h, k, extended, rfl⟩ := still
  exact ready

/-- What is left of a call in which nothing has changed. -/
theorem left_grown (s : Host) (bindings : List (String × Handle)) (h : Heap) (attained : Nat) :
    (((s.inCall bindings).grown h attained).left).unwind s.env.stack.depth =
      s.grown h attained := by
  have dropped : (SymbolTable.ofNames bindings :: s.env.stack.frames).drop
      ((SymbolTable.ofNames bindings :: s.env.stack.frames).length - s.env.stack.frames.length) =
        s.env.stack.frames := by
    simp
  simp only [grown, inCall, left, unwind, Stack.unwind, Stack.pushed, Stack.depth, dropped,
    Nat.add_sub_cancel]

/-- A call that only made values is left with the stack as it was. -/
theorem always_left {α : Type} {m : HostM α} {a : α} {bindings : List (String × Handle)} {h : Heap}
    (ran : m (s.inCall bindings) = .ok a ((s.inCall bindings).grown h k)) :
    always m (fun x => x.left.unwind s.env.stack.depth) (s.inCall bindings) =
      .ok a (s.grown h k) := by
  rw [always_of_ok ran, left_grown]

end Host

/-! ## Calls that succeed -/

section Success

variable {run : Runner} {c : Callable} {args : List Handle} {v w : Handle} {s t : Host}

/-- A question about the heap leaves the host as it is. -/
theorem onHeap_ask {α : Type} (f : Heap → Except Fault α) (s : Host) :
    onHeap (HeapM.ask f) s = of (f s.heap) s := by
  cases answer : f s.heap <;> simp only [onHeap, HeapM.ask, of, answer]

theorem onHeap_elements {q : Sequence Handle} (held : s.heap.data v = .array q) :
    onHeap (HeapM.elements v) s = .ok q.items s := by
  rw [HeapM.elements, onHeap_ask]
  simp only [held, of]

/-- Only a host that is ready can call anything. -/
theorem ready_of_execute (ran : execute run c args s = .ok w t) : s.Ready 1 := by
  by_contra unready
  cases going : s.interrupted with
  | false =>
    obtain ⟨bs, h, bound, -⟩ := Host.exists_bindings c.params args s
    have here : { s with heap := h }.environment? .host = some s.env := rfl
    have refused := Host.run_push_of_full here (Host.full_of_not_ready going unready)
    have failed : ∃ e, bindParams c args s = .error e { s with heap := h } := by
      simp only [bindParams, frame, Bind.bind, EStateM.bind, bound]
      cases SymbolTable.load bs .empty with
      | ok _ table =>
        refine ⟨.fault (.stackOverflow (s.env.stack.depth + 1) s.env.stack.limit), ?_⟩
        simp only [Pure.pure, EStateM.pure, refused]
      | error f table => exact ⟨_, rfl⟩
    obtain ⟨e, failed⟩ := failed
    simp only [execute, Bind.bind, EStateM.bind, look, going, Bool.false_eq_true, if_false,
      failed] at ran
    cases ran
  | true =>
    simp only [execute, Bind.bind, EStateM.bind, look, going, if_true] at ran
    cases ran

/-- A predicate that has been asked had room for its call. -/
theorem ready_of_holds {a b : Handle} {x : Bool} (ran : holds run v a b s = .ok x t) :
    s.Ready 1 := by
  simp only [holds, callValue, Bind.bind, EStateM.bind, HeapM.callable, onHeap_ask] at ran
  split at ran
  next w u called =>
    split at called
    next c t found =>
      simp only [of] at found
      split at found
      · cases found
        exact ready_of_execute called
      · cases found
    · cases called
  · cases ran

end Success

/-! ## Predicates that decide -/

section Deciding

variable {test : Before} {among : List Handle} {before : Handle → Handle → Bool} {s t : Host}
  {a b : Handle}

/-- A predicate has been asked about two of some values, and has answered. -/
def Answered (test : Before) (among : List Handle) (s t : Host) : Prop :=
  ∃ a ∈ among, ∃ b ∈ among, ∃ answer, test a b s = .ok answer t

/-- However often a predicate has been asked about these values since the state `s`, it answers
`before` and changes nothing. -/
def Decides (test : Before) (among : List Handle) (before : Handle → Handle → Bool) (s : Host) :
    Prop :=
  ∀ t, Relation.ReflTransGen (Answered test among) s t → ∀ a ∈ among, ∀ b ∈ among,
    ∃ u, test a b t = .ok (before a b) u ∧ t.Still u

/-- A predicate that decides still does after it has answered. -/
theorem Decides.answered (decides : Decides test among before s) (asked : Answered test among s t) :
    Decides test among before t :=
  fun u further => decides u (.head asked further)

/-- A predicate that decides wherever nothing has changed. -/
theorem Decides.of_still
    (wherever : ∀ t, s.Still t → ∀ a ∈ among, ∀ b ∈ among, ∃ u,
      test a b t = .ok (before a b) u ∧ t.Still u) : Decides test among before s := by
  intro t asked
  have still : s.Still t := by
    induction asked with
    | refl => exact .refl s
    | tail _ last ih =>
      obtain ⟨a, memA, b, memB, answer, run⟩ := last
      obtain ⟨u, decided, further⟩ := wherever _ ih a memA b memB
      obtain ⟨-, rfl⟩ := EStateM.Result.ok.inj (run.symm.trans decided)
      exact ih.trans further
  exact wherever t still

/-- Where a predicate can be asked in a call, there was room for the call. -/
theorem Decides.ready {run : Runner} {v : Handle} {bindings : List (String × Handle)}
    (decides : Decides (holds run v) among before (s.inCall bindings)) (mem : a ∈ among) :
    s.Ready 1 := by
  obtain ⟨t, asked, -⟩ := decides _ .refl a mem a mem
  exact (Host.ready_of_inCall (ready_of_holds asked)).mono (by omega)

/-- The course of hosts in which a predicate is asked that decides. -/
def deciding (test : Before) (among : List Handle) (before : Handle → Handle → Bool) :
    Course Host where
  holds := Decides test among before
  goes := Host.Still
  refl := .refl
  trans := .trans

/-- **One question.** -/
theorem yields_test (decides : Decides test among before s) (memA : a ∈ among) (memB : b ∈ among) :
    (deciding test among before).Yields (test a b) s fun x _ => x = before a b := by
  obtain ⟨u, run, still⟩ := decides s .refl a memA b memB
  exact ⟨before a b, u, run, decides.answered ⟨a, memA, b, memB, _, run⟩, still, rfl⟩

/-! ## Routines as predicates -/

/-- A routine that answers a question about the data of its two parameters. -/
structure Routine.Compares (r : Routine) (f : Data Handle → Data Handle → Except Fault Bool) :
    Prop where
  takes : r.Takes ["arg1", "arg2"]
  perform : ∀ run, r.perform run = do
    let a ← param "arg1"
    let b ← param "arg2"
    Routine.answerBoolean (← onHeap (HeapM.ask fun h => f (h.data a) (h.data b)))

theorem compares_lessThan : Routine.lessThan.Compares fun d e => (d.compare e).map (· == .lt) :=
  ⟨⟨rfl, by decide⟩, fun _ => rfl⟩

theorem compares_greaterThan :
    Routine.greaterThan.Compares fun d e => (e.compare d).map (· == .lt) :=
  ⟨⟨rfl, by decide⟩, fun _ => rfl⟩

theorem compares_equal :
    Routine.equal.Compares fun d e =>
      if d.kind = .null ∨ e.kind = .null then .ok (d.kind = .null ∧ e.kind = .null)
          else (d.compare e).map (· == .eq) :=
  ⟨⟨rfl, by decide⟩, fun _ => rfl⟩

section Comparing

variable {r : Routine} {f : Data Handle → Data Handle → Except Fault Bool} {v : Handle} {n : Nat}

/-- A routine that is asked answers, and nothing changes. -/
theorem holds_routine {x : Bool} (compares : r.Compares f) (provides : (s.heap.data v).Provides r)
    (ready : s.Ready 1) (answer : f (s.heap.data a) (s.heap.data b) = .ok x) :
    ∃ u, holds (.free (n + 1)) v a b s = .ok x u ∧ s.Still u := by
  let inside := s.inCall [("arg1", a), ("arg2", b)]
  let h := s.heap.push ⟨.leaf (.boolean x), false⟩
  have first : param "arg1" inside = .ok a inside := Host.param_inCall (by decide) (by rfl)
  have second : param "arg2" inside = .ok b inside := Host.param_inCall (by decide) (by rfl)
  have asked : onHeap (HeapM.ask fun h => f (h.data a) (h.data b)) inside = .ok x inside := by
    have same : f (inside.heap.data a) (inside.heap.data b) = .ok x := answer
    simp only [onHeap, HeapM.ask, same]
  have ran : r.perform (.free n) inside =
      .ok ⟨s.heap.size⟩ (inside.grown h inside.env.stack.attained) := by
    simp only [compares.perform, Bind.bind, EStateM.bind, first, second, asked]
    rfl
  have called : callValue (.free (n + 1)) v [a, b] s =
      .ok ⟨s.heap.size⟩ (s.grown h inside.env.stack.attained) := by
    rw [Host.run_callValue provides compares.takes rfl ready]
    exact Host.always_left ran
  have read : h.data ⟨s.heap.size⟩ = .leaf (.boolean x) := by rw [Heap.data, Heap.cell_push_new]
  refine ⟨s.grown h inside.env.stack.attained, ?_, h, _, Heap.extends_push _ _, rfl⟩
  simp only [holds, Bind.bind, EStateM.bind, called, onHeap, HeapM.asBoolean, HeapM.ask, Host.grown,
    read, Data.asBoolean]

/-- **A routine decides** about values that there are, as their data do not change. -/
theorem decides_routine (compares : r.Compares f) (provides : (s.heap.data v).Provides r)
    (ready : s.Ready 1) (made : ∀ a ∈ among, s.heap.Made a)
    (answers : ∀ a ∈ among, ∀ b ∈ among, f (s.heap.data a) (s.heap.data b) = .ok (before a b)) :
    Decides (holds (.free (n + 1)) v) among before s := by
  refine .of_still fun t still a memA b memB => ?_
  have same : ∀ w, s.heap.Made w → t.heap.data w = s.heap.data w :=
    fun w madeW => Heap.data_congr (still.extends.cell w madeW)
  have executable : s.heap.Made v := by
    obtain ⟨e, c, held, -⟩ := provides
    exact Heap.made_of_kind (by simp [Heap.kind, held, Data.kind, Leaf.kind])
  refine holds_routine compares ?_ (still.ready ready) ?_
  · rw [same v executable]
    exact provides
  · rw [same a (made a memA), same b (made b memB)]
    exact answers a memA b memB

end Comparing

end Deciding

/-! ## Any predicates -/

/-- Questions put to a predicate one after the other, and the state after the last one. Only the
last one can have failed. -/
inductive Tested (test : Before) : Host → List (Handle × Handle) → Option Halt → Host → Prop where
  | nothing (s : Host) : Tested test s [] none s
  | answered {s t u : Host} {a b : Handle} {answer : Bool} {asked : List (Handle × Handle)}
    {halt : Option Halt}
    (run : test a b s = .ok answer t) (rest : Tested test t asked halt u) :
      Tested test s ((a, b) :: asked) halt u
  | failed {s t : Host} {a b : Handle} {e : Halt} (run : test a b s = .error e t) :
    Tested test s [(a, b)] (some e) t

section Asking

variable {α β : Type} {test : Before} {s t u : Host} {m : HostM α} {f : α → HostM β} {j k : Nat}

/-- More questions after some that have been answered. -/
theorem Tested.append {asked more : List (Handle × Handle)} {halt : Option Halt}
    (first : Tested test s asked none t) (second : Tested test t more halt u) :
    Tested test s (asked ++ more) halt u := by
  generalize ended : none = stop at first
  induction first with
  | nothing => exact second
  | answered run _ ih => exact .answered run (ih second ended)
  | failed => cases ended

/-- A step that changes nothing but what a predicate changes, asks it so many times at most, fails
as it does, and gives up only if it does. -/
def Asks (test : Before) (most : Nat) (m : HostM α) (s : Host) : Prop :=
  ∃ asked halt, Tested test s asked halt (endState m s) ∧ asked.length ≤ most ∧
    (∀ e, halt = some e → m s = .error e (endState m s)) ∧ (GaveUp (m s) → halt = some .exhausted)

namespace Asks

/-- A step that changes nothing and does not give up asks nothing. -/
theorem nothing (same : endState m s = s) (ends : ¬ GaveUp (m s)) : Asks test 0 m s := by
  refine ⟨[], none, ?_, Nat.le_refl 0, by simp, fun gaveUp => absurd gaveUp ends⟩
  rw [same]
  exact .nothing s

theorem pure (a : α) : Asks test 0 (Pure.pure a) s := .nothing rfl (by rintro ⟨t, ⟨⟩⟩)

theorem of (x : Except Fault α) : Asks test 0 (HostM.of x) s := by
  cases x with
  | ok a => exact .nothing rfl (by rintro ⟨t, ⟨⟩⟩)
  | error f => exact .nothing rfl (by rintro ⟨t, ⟨⟩⟩)

/-- A greater bound on the questions will do. -/
theorem mono (asks : Asks test j m s) (more : j ≤ k) : Asks test k m s := by
  obtain ⟨asked, halt, tested, most, fails, ends⟩ := asks
  exact ⟨asked, halt, tested, most.trans more, fails, ends⟩

/-- Only what the step does from this state counts. -/
theorem congr {m' : HostM α} (asks : Asks test k m' s) (same : m s = m' s) : Asks test k m s := by
  simpa only [Asks, endState, same] using asks

/-- A question about the heap is none to the predicate. -/
theorem ask (f : Heap → Except Fault α) : Asks test 0 (onHeap (HeapM.ask f)) s :=
  (of (f s.heap)).congr (onHeap_ask f s)

/-- One question. -/
theorem question (a b : Handle) : Asks test 1 (test a b) s := by
  cases run : test a b s with
  | ok answer t =>
    have ended : endState (test a b) s = t := by rw [endState, run]
    refine ⟨[(a, b)], none, ?_, Nat.le_refl 1, by simp, ?_⟩
    · rw [ended]
      exact .answered run (.nothing t)
    · rintro ⟨u, gaveUp⟩
      cases run.symm.trans gaveUp
  | error e t =>
    have ended : endState (test a b) s = t := by rw [endState, run]
    refine ⟨[(a, b)], some e, ?_, Nat.le_refl 1, ?_, ?_⟩
    · rw [ended]
      exact .failed run
    · rintro _ ⟨⟩
      rw [ended, run]
    · rintro ⟨u, gaveUp⟩
      rw [(EStateM.Result.error.inj (run.symm.trans gaveUp)).1]

/-- The questions of two steps add up. -/
theorem bind (first : Asks test j m s) (next : ∀ a t, m s = .ok a t → Asks test k (f a) t) :
    Asks test (j + k) (m >>= f) s := by
  obtain ⟨asked, halt, tested, most, fails, ends⟩ := first
  cases run : m s with
  | ok a t =>
    have ended : endState m s = t := by rw [endState, run]
    have whole : (m >>= f) s = f a t := by simp only [Bind.bind, EStateM.bind, run]
    have last : endState (m >>= f) s = endState (f a) t := by rw [endState, whole, endState]
    obtain ⟨more, halt', further, most', fails', ends'⟩ := next a t run
    -- a question that fails makes the step fail, so none has failed
    have answered : halt = none := by
      cases halt with
      | none => rfl
      | some e => cases (fails e rfl).symm.trans run
    subst answered
    rw [ended] at tested
    refine ⟨asked ++ more, halt', ?_, ?_, ?_, ?_⟩
    · rw [last]
      exact tested.append further
    · rw [List.length_append]
      omega
    · rw [last, whole]
      exact fails'
    · rw [whole]
      exact ends'
  | error e t =>
    have ended : endState m s = t := by rw [endState, run]
    have whole : (m >>= f) s = .error e t := by simp only [Bind.bind, EStateM.bind, run]
    have last : endState (m >>= f) s = t := by rw [endState, whole]
    refine ⟨asked, halt, ?_, by omega, ?_, ?_⟩
    · rw [last, ← ended]
      exact tested
    · intro e' stopped
      obtain ⟨rfl, -⟩ := EStateM.Result.error.inj ((fails e' stopped).symm.trans run)
      rw [last, whole]
    · rintro ⟨u, gaveUp⟩
      obtain ⟨rfl, -⟩ := EStateM.Result.error.inj (whole.symm.trans gaveUp)
      exact ends ⟨t, run⟩

end Asks

end Asking

end ScriptHost
