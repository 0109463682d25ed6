import ScriptHost.Eval.Expr

/-!
# Endings that nothing catches

An `Escape` is a class of endings of a step that a guard lets pass, and that are not lost when
frames are dropped and calls are counted out. A step that comes to one of them comes to one of them
with all that stands around it.

`X.Agrees m' m`: the step `m'` ends in the escape `X`, or does exactly what `m` does. So an
evaluation under one runner agrees with the evaluation under another one when the bodies and the
watch do (`Agrees.eval`). All faults are caught by an attempt and by a run at top level. Where the
text of an expression has one of them (`Expr.Catches`), an escape has to be `Faultless`.
-/

set_option autoImplicit false

namespace ScriptHost

open HostM

/-- Endings of steps, each with the state that is left, that nothing catches on the way out. -/
structure Escape where
  Has : Halt → Host → Prop
  uncaught {f : Fault} {s : Host} (has : Has (.fault f) s) : f.isCatchable = false
  unwind {e : Halt} {s : Host} (depth : Nat) (has : Has e s) : Has e (s.unwind depth)
  counted {e : Halt} {s : Host} (calls : Nat) (has : Has e s) : Has e { s with callDepth := calls }

namespace Escape

/-- A step has come to one of the endings. -/
def Ended (X : Escape) {α : Type} (r : EStateM.Result Halt Host α) : Prop :=
  ∃ e t, r = .error e t ∧ X.Has e t

/-- No fault is among the endings. -/
def Faultless (X : Escape) : Prop := ∀ f t, ¬ X.Has (.fault f) t

/-- A step that ends in the escape or does what another one does. -/
def Agrees (X : Escape) {α : Type} (m' m : HostM α) : Prop := ∀ s, X.Ended (m' s) ∨ m' s = m s

variable {X : Escape} {α β : Type}

/-! ## The way out -/

namespace Ended

variable {m : HostM α} {k : α → HostM β} {s t : Host} {a : α} {run : Runner} {location : String}
  {statement : HostM Handle}

/-- A way out of the first step is one out of both. -/
theorem first (ended : X.Ended (m s)) : X.Ended ((m >>= k) s) := by
  obtain ⟨e, t, out, has⟩ := ended
  exact ⟨e, t, by simp only [Bind.bind, EStateM.bind, out], has⟩

/-- So is one out of the second, if it comes to that. -/
theorem next (ran : m s = .ok a t) (ended : X.Ended (k a t)) : X.Ended ((m >>= k) s) := by
  obtain ⟨e, u, out, has⟩ := ended
  exact ⟨e, u, by simp only [Bind.bind, EStateM.bind, ran, out], has⟩

/-- What is done in the end does not close the way out. -/
theorem always {change : Host → Host} (kept : ∀ {e t}, X.Has e t → X.Has e (change t))
    (ended : X.Ended (m s)) : X.Ended (HostM.always m change s) := by
  obtain ⟨e, t, out, has⟩ := ended
  exact ⟨e, change t, by simp only [HostM.always, out], kept has⟩

/-- Out of a statement and its guard. -/
theorem guarded (ended : X.Ended (statement s)) :
    X.Ended (HostM.guard run location statement s) := by
  obtain ⟨e, t, out, has⟩ := ended
  cases e with
  | exhausted => exact ⟨.exhausted, t, by simp only [HostM.guard, out], has⟩
  | fault f =>
    refine ⟨.fault f, t.unwind s.env.stack.depth, ?_, X.unwind _ has⟩
    simp only [HostM.guard, out, X.uncaught has, Bool.false_eq_true, if_false]

/-- Out of the handlers for the fault of a statement. -/
theorem handling {f : Fault} (failed : statement s = .error (.fault f) t)
    (caught : f.isCatchable = true)
    (ended : X.Ended (invokeHandlers run f.kind location f.message (t.unwind s.env.stack.depth))) :
    X.Ended (HostM.guard run location statement s) := by
  obtain ⟨e, u, out, has⟩ := ended
  exact ⟨e, u, by simp only [HostM.guard, failed, caught, if_true, out], has⟩

/-- Out of a step that catches faults, if there are none among the endings. -/
theorem exhausted (faultless : X.Faultless) (ended : X.Ended (m s)) :
    ∃ t, m s = .error .exhausted t ∧ X.Has .exhausted t := by
  obtain ⟨e, t, out, has⟩ := ended
  cases e with
  | exhausted => exact ⟨t, out, has⟩
  | fault f => exact absurd has (faultless f t)

end Ended

/-! ## Agreement -/

namespace Agrees

section Steps

variable {m m' : HostM α} {k k' : α → HostM β}

/-- A step agrees with itself. -/
theorem refl (m : HostM α) : X.Agrees m m := fun _ => .inr rfl

/-- Steps that agree one by one agree one after the other. -/
theorem bind (first : X.Agrees m' m) (next : ∀ a, X.Agrees (k' a) (k a)) :
    X.Agrees (m' >>= k') (m >>= k) := by
  intro s
  obtain ended | same := first s
  · exact .inl ended.first
  · cases ends : m s with
    | ok a t =>
      rw [ends] at same
      obtain ended | again := next a t
      · exact .inl (.next same ended)
      · exact .inr (by simp only [Bind.bind, EStateM.bind, same, ends, again])
    | error e t =>
      rw [ends] at same
      exact .inr (by simp only [Bind.bind, EStateM.bind, same, ends])

/-- A step that is the same in both. -/
theorem after (next : ∀ a, X.Agrees (k' a) (k a)) : X.Agrees (m >>= k') (m >>= k) :=
  (refl m).bind next

theorem always {change : Host → Host} (kept : ∀ {e t}, X.Has e t → X.Has e (change t))
    (agrees : X.Agrees m' m) : X.Agrees (HostM.always m' change) (HostM.always m change) := by
  intro s
  obtain ended | same := agrees s
  · exact .inl (ended.always kept)
  · exact .inr (by simp only [HostM.always, same])

/-- A step that is repeated agrees with one that is, round by round. -/
theorem times {step step' : HostM Yield} (agrees : X.Agrees step' step) (n : Nat) :
    X.Agrees (HostM.times n step') (HostM.times n step) := by
  fun_induction HostM.times n step with
  | case1 => exact refl _
  | case2 => exact agrees
  | case3 n step more ih =>
    rw [HostM.times.eq_3 step' n more]
    exact agrees.bind fun _ => ih agrees

/-- Giving up is not caught by an attempt. -/
theorem attempt (faultless : X.Faultless) {step step' : HostM Yield}
    (agrees : X.Agrees step' step) : X.Agrees (HostM.attempt step') (HostM.attempt step) := by
  have report : X.Agrees (reported step') (reported step) := agrees.bind fun _ => refl _
  intro s
  obtain ended | same := report s
  · obtain ⟨t, out, has⟩ := ended.exhausted faultless
    exact .inl ⟨.exhausted, t, by simp only [HostM.attempt, out], has⟩
  · exact .inr (by simp only [HostM.attempt, same])

/-- An outcome catches faults, so the way out must not be one. -/
theorem outcome (faultless : X.Faultless) {body body' : HostM Handle}
    (agrees : X.Agrees body' body) : X.Agrees (HostM.outcome body') (HostM.outcome body) := by
  intro s
  obtain ended | same := agrees s
  · obtain ⟨t, out, has⟩ := ended.exhausted faultless
    exact .inl ⟨.exhausted, t, by simp only [HostM.outcome, out], has⟩
  · exact .inr (by simp only [HostM.outcome, same])

end Steps

end Agrees

/-! ## Calls -/

section Runners

variable {run run' : Runner} (bodies : ∀ b, X.Agrees (run'.body b) (run.body b))

include bodies

/-- A call drops its frames in the end, which does not stop the way out. -/
theorem agrees_execute (c : Callable) (args : List Handle) :
    X.Agrees (execute run' c args) (execute run c args) := by
  refine .after fun interrupted => ?_
  split
  · exact .refl _
  · exact .after fun _ => .after fun _ =>
      .always (X.unwind _) (.after fun _ => .always (X.counted _) (bodies c.body))

/-- Names are resolved alike, since the states are the same up to the call. -/
theorem agrees_call (name : String) (args : List Handle) :
    X.Agrees (call run' name args) (call run name args) :=
  .after fun c => agrees_execute bodies c args

theorem agrees_callValue (callee : Handle) (args : List Handle) :
    X.Agrees (callValue run' callee args) (callValue run callee args) :=
  .after fun c => agrees_execute bodies c args

/-- Handlers are called one after the other, up to the first that refuses. -/
theorem agrees_offer (report : Handle) (handlers : List Handle) :
    X.Agrees (offer run' report handlers) (offer run report handlers) := by
  induction handlers with
  | nil => exact .refl _
  | cons handler rest ih =>
    refine .after fun args => (agrees_callValue bodies handler args).bind fun _ =>
      .after fun accepted => ?_
    split
    · exact ih
    · exact .refl _

theorem agrees_invokeHandlers (kind : FaultKind) (location message : String) :
    X.Agrees (invokeHandlers run' kind location message)
      (invokeHandlers run kind location message) := by
  refine .after fun handlers => ?_
  split
  · exact .refl _
  · exact .after fun report => agrees_offer bodies report _

/-- A guard that is left by the way out offers nothing to handlers. -/
theorem agrees_guard {statement statement' : HostM Handle} (location : String)
    (step : X.Agrees statement' statement) :
    X.Agrees (HostM.guard run' location statement') (HostM.guard run location statement) := by
  intro s
  obtain ended | same := step s
  · exact .inl ended.guarded
  · cases ends : statement s with
    | ok v t =>
      rw [ends] at same
      exact .inr (by simp only [HostM.guard, same, ends])
    | error e t =>
      rw [ends] at same
      cases e with
      | exhausted => exact .inr (by simp only [HostM.guard, same, ends])
      | fault f =>
        by_cases catchable : f.isCatchable
        · obtain ended | again :=
            agrees_invokeHandlers bodies f.kind location f.message (t.unwind s.env.stack.depth)
          · exact .inl (.handling same catchable ended)
          · exact .inr (by simp only [HostM.guard, same, ends, catchable, if_true, again])
        · exact .inr (by simp [HostM.guard, same, ends, catchable])

end Runners

/-! ## Routines -/

/-- A merge of what is left, by induction on the second list. -/
theorem agrees_mergeInto {before before' : Before}
    (tests : ∀ a b, X.Agrees (before' a b) (before a b)) (a : Handle) (as : List Handle)
    {rest rest' : List Handle → HostM (List Handle)} (rests : ∀ bs, X.Agrees (rest' bs) (rest bs))
    (bs : List Handle) :
    X.Agrees (mergeInto before' a as rest' bs) (mergeInto before a as rest bs) := by
  induction bs with
  | nil => exact .refl _
  | cons b bs ih =>
    refine (tests b a).bind fun first => ?_
    split
    · exact ih.bind fun _ => .refl _
    · exact (rests (b :: bs)).bind fun _ => .refl _

theorem agrees_merge {before before' : Before} (tests : ∀ a b, X.Agrees (before' a b) (before a b))
    (as bs : List Handle) : X.Agrees (merge before' as bs) (merge before as bs) := by
  induction as generalizing bs with
  | nil => exact .refl _
  | cons a as ih => exact agrees_mergeInto tests a as ih bs

/-- Sorts agree if their predicates do. -/
theorem agrees_mergeSortTo {before before' : Before}
    (tests : ∀ a b, X.Agrees (before' a b) (before a b)) (n : Nat) (vs : List Handle) :
    X.Agrees (mergeSortTo before' n vs) (mergeSortTo before n vs) := by
  induction n generalizing vs with
  | zero => exact .refl _
  | succ n ih =>
    unfold mergeSortTo
    split
    · exact .refl _
    · exact (ih _).bind fun left => (ih _).bind fun right => agrees_merge tests left right

/-- Operators are told to the watch, and nothing else of them depends on the runner. -/
theorem agrees_operate {watch watch' : Act → HostM Unit}
    (watches : ∀ act, X.Agrees (watch' act) (watch act)) (op : Binary) (a b : Handle) :
    X.Agrees (operate watch' op a b) (operate watch op a b) :=
  (watches _).bind fun _ => .refl _

/-- Searches from the front agree if their predicates do. -/
theorem agrees_findFrom {equal equal' : Handle → HostM Bool}
    (tests : ∀ v, X.Agrees (equal' v) (equal v)) (i : Int) (vs : List Handle) :
    X.Agrees (findFrom equal' i vs) (findFrom equal i vs) := by
  induction vs generalizing i with
  | nil => exact .refl _
  | cons v vs ih =>
    refine (tests v).bind fun found => ?_
    split
    · exact .refl _
    · exact ih (i + 1)

section Runners

variable {run run' : Runner} (bodies : ∀ b, X.Agrees (run'.body b) (run.body b))

include bodies

/-- Predicates are calls, so they agree if the bodies do. -/
theorem agrees_holds (predicate a b : Handle) :
    X.Agrees (HostM.holds run' predicate a b) (HostM.holds run predicate a b) :=
  (agrees_callValue bodies predicate [a, b]).bind fun _ => .refl _

/-- Binary searches agree, halving by halving. -/
theorem agrees_searchTo (array elem before : Handle) (n : Nat) (low high : Int) :
    X.Agrees (searchTo run' array elem before n low high)
      (searchTo run array elem before n low high) := by
  induction n generalizing low high with
  | zero => exact .refl _
  | succ n ih =>
    unfold searchTo
    split
    · exact .refl _
    · refine .after fun mid => .after fun item => (agrees_holds bodies before item elem).bind
        fun above => ?_
      split
      · exact ih _ _
      · refine (agrees_holds bodies before elem item).bind fun below => ?_
        split
        · exact ih _ _
        · exact .refl _

/-- **Routines** agree: those that call back do so by the bodies, all others are the same step. -/
theorem agrees_perform (watches : ∀ act, X.Agrees (run'.watch act) (run.watch act)) (r : Routine) :
    X.Agrees (r.perform run') (r.perform run) := by
  cases r with
  | append =>
    exact .after fun a => .after fun elem => (agrees_operate watches .add a elem).bind
      fun _ => .refl _
  | insert =>
    refine .after fun position => .after fun a => .after fun elem => ?_
    exact (agrees_operate watches (.insertAt position) a elem).bind fun _ => .refl _
  | sort =>
    refine .after fun array => .after fun before => .bind (.after fun items => ?_) fun _ => .refl _
    exact (agrees_mergeSortTo (agrees_holds bodies before) _ items).bind fun _ => .refl _
  | find =>
    refine .after fun array => .after fun elem => .after fun equal =>
      .bind (.after fun bounds => ?_) fun _ => .refl _
    exact .after fun items => agrees_findFrom (fun v => agrees_holds bodies equal v elem) _ items
  | findSorted =>
    refine .after fun array => .after fun elem => .after fun before =>
      .bind (.after fun bounds => ?_) fun _ => .refl _
    exact .after fun length => agrees_searchTo bodies array elem before _ _ _
  | onErrorInvoke =>
    exact .after fun kind => (agrees_invokeHandlers bodies kind _ _).bind fun _ => .refl _
  | _ => exact .refl _

end Runners

/-! ## Expressions -/

end Escape

mutual

/-- An attempt, or a run at top level, stands in the text of an expression. Bodies of functions are
not looked into: to make a function is not to run it. -/
def Expr.Catches : Expr → Prop
  | .attempt _ | .run _ => True
  | .literal _ | .ask _ | .command _ | .raise _ | .function _ _ _ | .held _
  | .invokeHandlers _ _ _ => False
  | .unary _ e | .bind _ e | .hold _ e | .times _ e | .log e => e.Catches
  | .binary _ a b => a.Catches ∨ b.Catches
  | .insertKey t k e | .branch t k e => t.Catches ∨ k.Catches ∨ e.Catches
  | .setElements e es | .callValue e es => e.Catches ∨ Expr.AnyCatches es
  | .array _ es _ | .sequence es | .call _ es | .callStates _ es | .guard _ es => Expr.AnyCatches es
  | .dictionary es => Expr.EntryCatches es
  | .record es | .scope _ es _ => Expr.NamedCatches es

def Expr.AnyCatches : List Expr → Prop
  | [] => False
  | e :: es => e.Catches ∨ Expr.AnyCatches es

def Expr.NamedCatches : List (String × Expr) → Prop
  | [] => False
  | (_, e) :: es => e.Catches ∨ Expr.NamedCatches es

def Expr.EntryCatches : List (Expr × Expr) → Prop
  | [] => False
  | (k, e) :: es => k.Catches ∨ e.Catches ∨ Expr.EntryCatches es

end

namespace Escape

/-- Two runners whose bodies and watches agree. -/
structure RunnersAgree (X : Escape) (run' run : Runner) : Prop where
  bodies : ∀ b, X.Agrees (run'.body b) (run.body b)
  watches : ∀ act, X.Agrees (run'.watch act) (run.watch act)

variable {X : Escape} {run run' : Runner}

mutual

/-- **Expressions agree** if the bodies and the watches do, one case for each form. Where an
expression catches faults, the way out must not be one. -/
theorem agrees_eval (agree : X.RunnersAgree run' run) (e : Expr) (clear : e.Catches → X.Faultless) :
    X.Agrees (e.eval run') (e.eval run) := by
  cases e with
  | literal | ask | raise | function | held => exact .refl _
  | command c => exact (agree.watches _).bind fun _ => .refl _
  | unary op e => exact (agrees_eval agree e clear).bind fun _ => .refl _
  | binary op a b =>
    refine (agrees_eval agree a (clear ∘ Or.inl)).bind fun _ => .after fun x => ?_
    refine (agrees_eval agree b (clear ∘ Or.inr)).bind fun _ => .after fun y => ?_
    exact agrees_operate agree.watches op x y
  | insertKey t k e =>
    refine (agrees_eval agree t (clear ∘ Or.inl)).bind fun _ => .after fun _ => ?_
    refine (agrees_eval agree k (clear ∘ Or.inr ∘ Or.inl)).bind fun _ => .after fun _ => ?_
    exact (agrees_eval agree e (clear ∘ Or.inr ∘ Or.inr)).bind fun _ => .refl _
  | setElements t es =>
    refine (agrees_eval agree t (clear ∘ Or.inl)).bind fun _ => .after fun _ => ?_
    exact (agrees_evalAll agree es (clear ∘ Or.inr)).bind fun _ =>
      (agree.watches _).bind fun _ => .refl _
  | bind place e =>
    exact (agrees_eval agree e clear).bind fun _ => .after fun _ =>
      (agree.watches _).bind fun _ => .refl _
  | array start es policy => exact (agrees_evalAll agree es clear).bind fun _ => .refl _
  | dictionary entries =>
    exact .after fun d => (agrees_evalEntries agree d entries clear).bind fun _ => .refl _
  | record members => exact (agrees_evalNamed agree members clear).bind fun _ => .refl _
  | hold register e => exact (agrees_eval agree e clear).bind fun _ => .refl _
  | sequence es => exact agrees_evalLast agree es clear
  | times n e => exact (agrees_eval agree e clear).times n
  | branch c a b =>
    refine (agrees_eval agree c (clear ∘ Or.inl)).bind fun _ => .after fun _ =>
      .after fun chosen => ?_
    split
    · exact agrees_eval agree a (clear ∘ Or.inr ∘ Or.inl)
    · exact agrees_eval agree b (clear ∘ Or.inr ∘ Or.inr)
  | attempt e =>
    have faultless : X.Faultless := clear trivial
    exact (agrees_eval agree e fun _ => faultless).attempt faultless
  | log e => exact Agrees.bind ((agrees_eval agree e clear).bind fun _ => .refl _) fun _ => .refl _
  | call name args =>
    exact (agrees_evalAll agree args clear).bind fun vs => (agrees_call agree.bodies name vs).bind
      fun _ => .refl _
  | callValue f args =>
    refine (agrees_eval agree f (clear ∘ Or.inl)).bind fun _ => .after fun callee => ?_
    refine (agrees_evalAll agree args (clear ∘ Or.inr)).bind fun vs => ?_
    exact (agrees_callValue agree.bodies callee vs).bind fun _ => .refl _
  | callStates name args => exact (agrees_evalAll agree args clear).bind fun _ => .refl _
  | guard location body =>
    exact (agrees_guard agree.bodies location (agrees_evalBody agree body clear)).bind
      fun _ => .refl _
  | run body =>
    have faultless : X.Faultless := clear trivial
    exact ((agrees_evalBody agree body fun _ => faultless).outcome faultless).bind fun _ => .refl _
  | invokeHandlers kind location message =>
    exact (agrees_invokeHandlers agree.bodies kind location message).bind fun _ => .refl _
  | scope env bindings keys => exact (agrees_evalNamed agree bindings clear).bind fun _ => .refl _

/-- Expressions in a row. -/
theorem agrees_evalAll (agree : X.RunnersAgree run' run) (es : List Expr)
    (clear : Expr.AnyCatches es → X.Faultless) :
    X.Agrees (Expr.evalAll run' es) (Expr.evalAll run es) := by
  cases es with
  | nil => exact .refl _
  | cons e es =>
    refine (agrees_eval agree e (clear ∘ Or.inl)).bind fun _ => .after fun _ => ?_
    exact (agrees_evalAll agree es (clear ∘ Or.inr)).bind fun _ => .refl _

theorem agrees_evalNamed (agree : X.RunnersAgree run' run) (es : List (String × Expr))
    (clear : Expr.NamedCatches es → X.Faultless) :
    X.Agrees (Expr.evalNamed run' es) (Expr.evalNamed run es) := by
  match es with
  | [] => exact .refl _
  | (_, e) :: es =>
    refine (agrees_eval agree e (clear ∘ Or.inl)).bind fun _ => .after fun _ => ?_
    exact (agrees_evalNamed agree es (clear ∘ Or.inr)).bind fun _ => .refl _

/-- Entries of a dictionary, key before value. -/
theorem agrees_evalEntries (agree : X.RunnersAgree run' run) (target : Handle)
    (es : List (Expr × Expr)) (clear : Expr.EntryCatches es → X.Faultless) :
    X.Agrees (Expr.evalEntries run' target es) (Expr.evalEntries run target es) := by
  match es with
  | [] => exact .refl _
  | (k, e) :: es =>
    refine (agrees_eval agree k (clear ∘ Or.inl)).bind fun _ => .after fun _ => ?_
    refine (agrees_eval agree e (clear ∘ Or.inr ∘ Or.inl)).bind fun _ => .after fun _ =>
      .after fun _ => ?_
    exact agrees_evalEntries agree target es (clear ∘ Or.inr ∘ Or.inr)

theorem agrees_evalLast (agree : X.RunnersAgree run' run) (es : List Expr)
    (clear : Expr.AnyCatches es → X.Faultless) :
    X.Agrees (Expr.evalLast run' es) (Expr.evalLast run es) := by
  match es with
  | [] => exact .refl _
  | [e] => exact agrees_eval agree e (clear ∘ Or.inl)
  | e :: e' :: es =>
    exact (agrees_eval agree e (clear ∘ Or.inl)).bind fun _ =>
      agrees_evalLast agree (e' :: es) (clear ∘ Or.inr)

/-- A body, whose value is that of its last expression. -/
theorem agrees_evalBody (agree : X.RunnersAgree run' run) (es : List Expr)
    (clear : Expr.AnyCatches es → X.Faultless) :
    X.Agrees (Expr.evalBody run' es) (Expr.evalBody run es) := by
  match es with
  | [] => exact .refl _
  | [e] => exact (agrees_eval agree e (clear ∘ Or.inl)).bind fun _ => .refl _
  | e :: e' :: es =>
    refine (agrees_eval agree e (clear ∘ Or.inl)).bind fun _ => .after fun _ => ?_
    exact agrees_evalBody agree (e' :: es) (clear ∘ Or.inr)

end

end Escape

end ScriptHost
