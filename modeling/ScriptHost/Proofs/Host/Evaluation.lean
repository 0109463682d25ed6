import ScriptHost.Proofs.Host.Library

/-!
# Evaluation under a regime

Every expression, evaluated with calls nested to any depth under a watch, keeps to a regime that is
lawful for the watch: `Regime.Lawful.leads_eval`. The induction is on the text of the expression,
and for the bodies that calls run, on the levels that are left.
-/

set_option autoImplicit false

namespace ScriptHost

open HostM Course

/-! ## Operations over the heap that only expressions make -/

namespace Heap

variable {v : Handle}

/-- A literal is a new value. -/
theorem sound_make (l : Literal) : l.make.Sound [] fun v => [v] := by
  have other : ∀ {l : Leaf}, l.kind ≠ .integer → (HeapM.newLeaf l).Sound [] fun v => [v] :=
    fun other => sound_newLeaf (Data.fits_of_not_integer other)
  cases l with
  | null => exact sound_newNull
  | placeholder => exact other (by simp [Leaf.kind])
  | boolean b => exact other (by simp [Leaf.kind])
  | integer i => exact sound_newLeaf (Data.fits_unbounded i)
  | real r => exact other (by simp [Leaf.kind])
  | string s => exact other (by simp [Leaf.kind])
  | type spec =>
    exact fun _ P h region given => Leads.ofBind region fun t _ =>
      other (by simp [Leaf.kind]) P h region given
  | numeral text =>
    intro typed P h region given
    exact Leads.ofBind region fun l run => sound_newLeaf (fits_numeral run) P h region given

instance lasting_make (l : Literal) : l.make.Lasting := by
  cases l <;> unfold Literal.make <;> infer_instance

/-- A lock on a value changes none of its parts but for their locks. -/
theorem sound_locked : HeapM.Sound (do HeapM.lock v; return v) [v] fun w => [w] := by
  intro typed P h region given
  refine (sound_lock P h region given).bind fun _ t state gone _ => .pure state ?_
  simpa using (given v (by simp)).changes gone

instance lasting_imagesOf (vs : List Handle) : (imagesOf vs).Lasting := by
  unfold imagesOf
  infer_instance

/-- Reporting the images of values yields none of them. -/
theorem sound_imagesOf {m : HeapM (List Handle)} {given : List Handle}
    (sound : m.Sound given fun vs => vs) : HeapM.Sound (do imagesOf (← m)) given fun _ => [] :=
  fun _ P h region known => (sound P h region known).bind fun _ _ state _ _ =>
    Leads.look state (by simp)

/-- An operation that yields values can be taken for one that yields none. -/
theorem sound_forget {α : Type} {m : HeapM α} {given : List Handle} {yields : α → List Handle}
    (sound : m.Sound given yields) : m.Sound given fun _ => [] :=
  fun _ P h region known => (sound P h region known).weaken fun _ _ _ _ _ => by simp

end Heap

/-- The value that a report stands for is no integer out of bounds. -/
theorem Report.fits_toLeaf {r : Report} {l : Leaf} (stands : r.toLeaf? = some l) :
    (Data.leaf l : Data Handle).Fits := by
  cases r with
  | flag b =>
    cases stands
    exact Data.fits_of_not_integer (by simp [Leaf.kind])
  | number n =>
    obtain ⟨i, _, rfl⟩ := Option.map_eq_some_iff.mp stands
    exact Data.fits_unbounded i
  | text s =>
    cases stands
    exact Data.fits_of_not_integer (by simp [Leaf.kind])
  | nothing | image _ | list _ | record _ => cases stands

/-! ## Yields -/

namespace Regime

variable {G : Regime} {s : Host}

/-- A step that yields nothing. -/
theorem leads_effect {step : HostM Unit} (leads : G.course.Leads step s fun _ _ => True) :
    G.course.Leads (effect step) s fun y t => y.All (G.uses t) :=
  leads.bind fun _ _ held _ _ => .pure held trivial

theorem leads_lookReport {f : Host → Report} (held : G.course.holds s) :
    G.course.Leads (lookReport f) s fun y t => y.All (G.uses t) :=
  Leads.hostLookBind (.pure held trivial)

/-- A report is plain data: it holds no value that would have to be used. -/
theorem leads_reported {step : HostM Yield}
    (leads : G.course.Leads step s fun y t => y.All (G.uses t)) :
    G.course.Leads (reported step) s fun _ _ => True :=
  leads.bind fun _ _ held _ _ => Leads.hostLook held trivial

/-- An attempt turns a fault into a report and leaves the state of the step that failed. Giving up
goes through. -/
theorem leads_attempt {step : HostM Yield}
    (leads : G.course.Leads step s fun y t => y.All (G.uses t)) :
    G.course.Leads (attempt step) s fun y t => y.All (G.uses t) := by
  have report := leads_reported leads
  cases ends : reported step s with
  | ok r t =>
    obtain ⟨held, gone, _⟩ := report.ok ends
    have whole : attempt step s = .ok (.report (.ok r)) t := by simp only [attempt, ends]
    exact .of_ok whole held gone trivial
  | error halt t =>
    obtain ⟨held, gone⟩ := report.error ends
    cases halt with
    | fault f =>
      have whole : attempt step s = .ok (.report (.fault f)) t := by simp only [attempt, ends]
      exact .of_ok whole held gone trivial
    | exhausted =>
      have whole : attempt step s = .error .exhausted t := by simp only [attempt, ends]
      exact .of_error whole held gone

/-- A step that is repeated keeps to the regime if it does so wherever the regime holds. -/
theorem leads_times {n : Nat} {step : HostM Yield} (held : G.course.holds s)
    (leads : ∀ {t : Host}, G.course.holds t → G.course.Leads step t fun y u => y.All (G.uses u)) :
    G.course.Leads (times n step) s fun y t => y.All (G.uses t) := by
  fun_induction times n step generalizing s with
  | case1 => exact .pure held trivial
  | case2 step => exact leads held
  | case3 n step _ ih => exact (leads held).bind fun _ _ held _ _ => ih held leads

end Regime

namespace Regime.HeapLawful

variable {G : Regime} (law : G.HeapLawful) {s : Host}

include law

/-- A report that is used as a value becomes a new one, or a Null. -/
theorem leads_toHandle {y : Yield} (held : G.course.holds s) (used : y.All (G.uses s)) :
    G.course.Leads y.toHandle s fun v t => G.uses t v := by
  cases y with
  | value v => exact .pure held used
  | report r =>
    dsimp only [Yield.toHandle]
    split
    next l stands => exact law.heapLeaf (Report.fits_toLeaf stands) held
    · exact law.heapNull held

/-- **Operands.** What comes after an operand starts with the value that it yields. -/
theorem operandBind {β : Type} {m : HostM Yield} {k : Handle → HostM β} {R : β → Host → Prop}
    (leads : G.course.Leads m s fun y t => y.All (G.uses t))
    (next : ∀ v t, G.course.holds t → G.course.goes s t → G.uses t v → G.course.Leads (k v) t R) :
    G.course.Leads (m >>= fun y => y.toHandle >>= k) s R :=
  leads.bind fun _ _ held gone used =>
    (law.leads_toHandle held used).bind fun v u held further used =>
      next v u held (G.course.trans gone further) used

/-- An operation on values whose result may be used. -/
theorem leads_heapValue {m : HeapM Handle} [m.Lasting] {given : List Handle}
    (sound : m.Sound given fun v => [v]) (held : G.course.holds s)
    (used : ∀ v ∈ given, G.uses s v) :
    G.course.Leads (HostM.heapValue m) s fun y t => y.All (G.uses t) :=
  (law.heapValue sound held used).bind fun _ _ held _ used => .pure held used

theorem leads_heapEffect {m : HeapM Unit} [m.Lasting] {given : List Handle}
    (sound : m.Sound given fun _ => []) (held : G.course.holds s) (used : ∀ v ∈ given, G.uses s v) :
    G.course.Leads (heapEffect m) s fun y t => y.All (G.uses t) :=
  leads_effect (law.heapPlain sound held used)

/-- An operation on values of which only a report is left. -/
theorem leads_heapReport {α : Type} {m : HeapM α} [m.Lasting] {f : α → Report} {given : List Handle}
    (sound : m.Sound given fun _ => []) (held : G.course.holds s) (used : ∀ v ∈ given, G.uses s v) :
    G.course.Leads (heapReport f m) s fun y t => y.All (G.uses t) :=
  (law.heapPlain sound held used).bind fun _ _ held _ _ => .pure held trivial

theorem leads_askReport {α : Type} {m : Heap → Except Fault α} {f : α → Report}
    (held : G.course.holds s) :
    G.course.Leads (heapReport f (HeapM.ask m)) s fun y t => y.All (G.uses t) :=
  law.leads_heapReport Heap.sound_ask held (by simp)

/-- An operation that may yield a value. -/
theorem leads_heapOption {m : HeapM (Option Handle)} [m.Lasting] {given : List Handle}
    (sound : m.Sound given fun v => v.toList) (held : G.course.holds s)
    (used : ∀ v ∈ given, G.uses s v) :
    G.course.Leads (do return Yield.ofOption (← onHeap m)) s fun y t => y.All (G.uses t) := by
  refine (law.heap sound held used).bind fun v t held _ used => .pure held ?_
  cases v with
  | none => trivial
  | some v => exact used v (by simp)

/-! ## Operations -/

/-- **Operators** on one value keep to the regime, one case for each of them. -/
theorem leads_unary {v : Handle} (op : Unary) (held : G.course.holds s) (used : G.uses s v) :
    G.course.Leads (op.perform v) s fun y t => y.All (G.uses t) := by
  have given : ∀ w ∈ [v], G.uses s w := by simpa using used
  cases op with
  | locked => exact law.leads_heapValue Heap.sound_locked held given
  | lock => exact law.leads_heapEffect Heap.sound_lock held given
  | elementAt index => exact law.leads_heapValue Heap.sound_elementAt held given
  | member name => exact law.leads_heapValue Heap.sound_member held given
  | declare => exact law.leads_heapValue Heap.sound_declareFrom held given
  | copy => exact law.leads_heapValue Heap.sound_copy held given
  | duplicate how => exact law.leads_heapValue Heap.sound_duplicate held given
  | cloneWith how => exact law.leads_heapValue Heap.sound_cloneWith held given
  | cast k => exact law.leads_heapValue Heap.sound_cast held given
  | typeOf => exact law.leads_heapValue Heap.sound_typeOf held given
  | swap a b => exact law.leads_heapEffect Heap.sound_swap held given
  | elements => exact law.leads_heapReport (Heap.sound_imagesOf Heap.sound_elements) held given
  | keys => exact law.leads_heapReport (Heap.sound_imagesOf Heap.sound_keys) held given
  | resolve _ | length =>
    exact law.leads_heapReport (fun _ _ _ region _ => Leads.askBind region
      fun _ _ => .pure region (by simp)) held given
  | bounds | members | asBoolean | asInteger | asReal | asString => exact law.leads_askReport held
  | isLocked | kind | display | debug | predicates | inspect => exact leads_lookReport held

/-- What is assigned has to be allowed, and what is inserted at a place has to be allowed there. -/
theorem leads_binary {a b : Handle} (op : Binary) (held : G.course.holds s) (first : G.uses s a)
    (second : G.uses s b)
    (assigns : op = .assign → G.course.Leads (onHeap (HeapM.assign a b)) s fun _ _ => True)
    (inserts : ∀ position, op = .insertAt position →
      G.course.Leads (onHeap (HeapM.insertAt a b position)) s fun _ _ => True) :
    G.course.Leads (op.perform a b) s fun y t => y.All (G.uses t) := by
  have given : ∀ w ∈ [a, b], G.uses s w := by simp [first, second]
  cases op with
  | assign => exact leads_effect (assigns rfl)
  | add => exact law.leads_heapEffect Heap.sound_add held given
  | insertAt position => exact leads_effect (inserts position rfl)
  | element => exact law.leads_heapValue Heap.sound_element held given
  | getKey => exact law.leads_heapOption Heap.sound_getKey held given
  | removeKey => exact law.leads_heapOption Heap.sound_removeKey held given
  | containsKey => exact law.leads_heapReport (Heap.sound_forget Heap.sound_getKey) held given
  | compare | equals | lessThan => exact law.leads_askReport held
  | exactlyEqual | alike | reaches => exact leads_lookReport held
  | same => exact .pure held trivial

end Regime.HeapLawful

namespace Regime.Lawful

variable {G : Regime} {watch : Act → HostM Unit} {body : Body → HostM Handle} {s : Host}

section Registers

variable (law : G.Lawful watch)

include law

/-- The value in a register may be used. -/
theorem leads_held {register : String} (held : G.course.holds s) :
    G.course.Leads (HostM.held register) s fun v t => G.uses t v := by
  refine Leads.hostLookBind ?_
  cases found : Named.find register s.registers with
  | some v => exact .pure held (law.register held found)
  | none => exact law.heapNull held

/-- The outcome of a body as a report. -/
theorem leads_outcomeReport {body : HostM Handle} (held : G.course.holds s)
    (step : G.course.Leads body s fun v t => G.uses t v) :
    G.course.Leads (outcomeReport body) s fun y t => y.All (G.uses t) := by
  refine (law.leads_outcome held step).bind fun o t held _ _ => ?_
  cases o with
  | completed v => exact Leads.hostLookBind (.pure held trivial)
  | aborted f => exact .pure held trivial
  | terminated => exact .pure held trivial

end Registers

/-! ## Expressions -/

mutual

/-- **Expressions.** One case for each form: operands are evaluated in order, and each may be used
after the next ones, since what may be used stays so. -/
theorem leads_eval (law : G.Lawful watch) (bodies : G.Runs ⟨body, watch⟩) :
    (e : Expr) → ∀ {s : Host}, G.course.holds s →
    G.course.Leads (e.eval ⟨body, watch⟩) s fun y t => y.All (G.uses t)
  | .literal l, _, held => by
    rw [Expr.eval]
    exact law.leads_heapValue (Heap.sound_make l) held (by simp)
  | .ask q, _, held => by
    rw [Expr.eval]
    exact Leads.hostOfBind held fun _ _ => .pure held trivial
  | .command c, _, held => by
    rw [Expr.eval]
    exact law.command c held
  | .raise f, _, held => by
    rw [Expr.eval]
    exact Leads.fail held
  | .unary op e, _, held => by
    rw [Expr.eval]
    exact law.operandBind (law.leads_eval bodies e held) fun v t held _ used =>
      law.leads_unary op held used
  | .binary op a b, _, held => by
    rw [Expr.eval]
    refine law.operandBind (law.leads_eval bodies a held) fun x t held _ first => ?_
    refine law.operandBind (law.leads_eval bodies b held) fun y u held gone second => ?_
    exact law.operate op held (law.lasts first gone) second
  | .insertKey t k e, _, held => by
    rw [Expr.eval]
    refine law.operandBind (law.leads_eval bodies t held) fun target t held _ first => ?_
    refine law.operandBind (law.leads_eval bodies k held) fun key u held gone second => ?_
    refine law.operandBind (law.leads_eval bodies e held) fun v w held further third => ?_
    refine law.leads_heapEffect Heap.sound_insertKey held ?_
    simpa using ⟨law.lasts first (G.course.trans gone further), law.lasts second further, third⟩
  | .setElements t es, _, held => by
    rw [Expr.eval]
    refine law.operandBind (law.leads_eval bodies t held) fun target t held _ first => ?_
    refine (law.leads_evalAll bodies es held).bind fun vs w held gone used => ?_
    exact law.setElements held (law.lasts first gone) used
  | .bind place e, _, held => by
    rw [Expr.eval]
    exact law.operandBind (law.leads_eval bodies e held) fun v t held _ used =>
      law.bind place held used
  | .array start es policy, _, held => by
    rw [Expr.eval]
    refine (law.leads_evalAll bodies es held).bind fun vs t held _ used => ?_
    exact law.leads_heapValue (Heap.sound_new Data.fits_array rfl) held used
  | .dictionary entries, _, held => by
    rw [Expr.eval]
    refine (law.heapValue (Heap.sound_new Data.fits_dictionary rfl) held
      (by simp [Data.parts, Dictionary.values, Dictionary.empty])).bind fun d t held _ used => ?_
    exact (law.leads_evalEntries bodies entries held used).bind fun _ _ held gone _ =>
      .pure held (law.lasts used gone)
  | .record members, _, held => by
    rw [Expr.eval]
    refine (law.leads_evalNamed bodies members held).bind fun ms t held _ used => ?_
    exact law.leads_heapValue (Heap.sound_new Data.fits_record rfl) held
      fun v mem => used v (Record.mem_ofMembers mem)
  | .function name params code, _, held => by
    rw [Expr.eval]
    exact law.leads_heapValue Heap.sound_newFunction held (by simp)
  | .held register, _, held => by
    rw [Expr.eval]
    exact (law.leads_held held).bind fun _ _ held _ used => .pure held used
  | .hold register e, _, held => by
    rw [Expr.eval]
    refine law.operandBind (law.leads_eval bodies e held) fun v t held _ used => ?_
    exact (law.hold held used).bind fun _ _ held gone _ => .pure held (law.lasts used gone)
  | .sequence es, _, held => by
    rw [Expr.eval]
    exact law.leads_evalLast bodies es held
  | .times n e, _, held => by
    rw [Expr.eval]
    exact leads_times held fun held => law.leads_eval bodies e held
  | .branch c a b, _, held => by
    rw [Expr.eval]
    refine law.operandBind (law.leads_eval bodies c held) fun v t held _ used => ?_
    refine (law.heapAsk held).bind fun chosen w held _ _ => ?_
    split
    · exact law.leads_eval bodies a held
    · exact law.leads_eval bodies b held
  | .attempt e, _, held => by
    rw [Expr.eval]
    exact leads_attempt (law.leads_eval bodies e held)
  | .log e, _, held => by
    rw [Expr.eval]
    refine (leads_reported (law.leads_eval bodies e held)).bind fun r t held _ _ => leads_effect ?_
    obtain ⟨after, gone⟩ := law.aside t t.stream (r :: t.log) held
    exact Leads.change after gone trivial
  | .call name args, _, held => by
    rw [Expr.eval]
    refine (law.leads_evalAll bodies args held).bind fun vs t held _ used => ?_
    exact (law.leads_call bodies held used).bind fun _ _ held _ used => .pure held used
  | .callValue f args, _, held => by
    rw [Expr.eval]
    refine law.operandBind (law.leads_eval bodies f held) fun callee t held _ _ => ?_
    refine (law.leads_evalAll bodies args held).bind fun vs u held _ used => ?_
    exact (law.leads_callValue bodies held used).bind fun _ _ held _ used => .pure held used
  | .callStates name args, _, held => by
    rw [Expr.eval]
    exact (law.leads_evalAll bodies args held).bind fun vs t held _ used => law.callStates held used
  | .guard location code, _, held => by
    rw [Expr.eval]
    exact (law.leads_guard bodies held (law.leads_evalBody bodies code held)).bind
      fun _ _ held _ used => .pure held used
  | .run code, _, held => by
    rw [Expr.eval]
    exact law.leads_outcomeReport held (law.leads_evalBody bodies code held)
  | .invokeHandlers kind location message, _, held => by
    rw [Expr.eval]
    exact (law.leads_invokeHandlers bodies kind location message held).bind fun _ _ held _ _ =>
      .pure held trivial
  | .scope env bindings keys, _, held => by
    rw [Expr.eval]
    exact (law.leads_evalNamed bodies bindings held).bind fun vs t held _ used =>
      law.scopes held used

/-- Expressions in a row. -/
theorem leads_evalAll (law : G.Lawful watch) (bodies : G.Runs ⟨body, watch⟩) :
    (es : List Expr) → ∀ {s : Host}, G.course.holds s →
    G.course.Leads (Expr.evalAll ⟨body, watch⟩ es) s fun vs t => ∀ v ∈ vs, G.uses t v
  | [], _, held => by
    rw [Expr.evalAll]
    exact .pure held (by simp)
  | e :: es, _, held => by
    rw [Expr.evalAll]
    refine law.operandBind (law.leads_eval bodies e held) fun v t held _ first => ?_
    refine (law.leads_evalAll bodies es held).bind fun vs w held gone rest => .pure held ?_
    simp only [List.mem_cons, forall_eq_or_imp]
    exact ⟨law.lasts first gone, rest⟩

/-- Expressions with names. -/
theorem leads_evalNamed (law : G.Lawful watch) (bodies : G.Runs ⟨body, watch⟩) :
    (es : List (String × Expr)) → ∀ {s : Host}, G.course.holds s →
    G.course.Leads (Expr.evalNamed ⟨body, watch⟩ es) s fun vs t => ∀ v ∈ vs.map (·.2), G.uses t v
  | [], _, held => by
    rw [Expr.evalNamed]
    exact .pure held (by simp)
  | (n, e) :: es, _, held => by
    rw [Expr.evalNamed]
    refine law.operandBind (law.leads_eval bodies e held) fun v t held _ first => ?_
    refine (law.leads_evalNamed bodies es held).bind fun vs w held gone rest => .pure held ?_
    simp only [List.map_cons, List.mem_cons, forall_eq_or_imp]
    exact ⟨law.lasts first gone, rest⟩

/-- Entries are put into a dictionary one by one, key before value. -/
theorem leads_evalEntries (law : G.Lawful watch) (bodies : G.Runs ⟨body, watch⟩) :
    (es : List (Expr × Expr)) → ∀ {s : Host} {target : Handle}, G.course.holds s →
    G.uses s target → G.course.Leads (Expr.evalEntries ⟨body, watch⟩ target es) s fun _ _ => True
  | [], _, _, held, _ => by
    rw [Expr.evalEntries]
    exact .pure held trivial
  | (k, e) :: es, _, _, held, into => by
    rw [Expr.evalEntries]
    refine law.operandBind (law.leads_eval bodies k held) fun key t held one first => ?_
    refine law.operandBind (law.leads_eval bodies e held) fun v u held two second => ?_
    have into := law.lasts into (G.course.trans one two)
    refine (law.heapPlain Heap.sound_insertKey held
      (by simpa using ⟨into, law.lasts first two, second⟩)).bind fun _ w held gone _ => ?_
    exact law.leads_evalEntries bodies es held (law.lasts into gone)

/-- A sequence yields what its last expression does. -/
theorem leads_evalLast (law : G.Lawful watch) (bodies : G.Runs ⟨body, watch⟩) :
    (es : List Expr) → ∀ {s : Host}, G.course.holds s →
    G.course.Leads (Expr.evalLast ⟨body, watch⟩ es) s fun y t => y.All (G.uses t)
  | [], _, held => by
    rw [Expr.evalLast]
    exact .pure held trivial
  | [e], _, held => by
    rw [Expr.evalLast]
    exact law.leads_eval bodies e held
  | e :: f :: es, _, held => by
    rw [Expr.evalLast]
    · exact (law.leads_eval bodies e held).bind fun _ _ held _ _ =>
        law.leads_evalLast bodies (f :: es) held
    · simp

/-- A body yields the value of its last expression. -/
theorem leads_evalBody (law : G.Lawful watch) (bodies : G.Runs ⟨body, watch⟩) :
    (es : List Expr) → ∀ {s : Host}, G.course.holds s →
    G.course.Leads (Expr.evalBody ⟨body, watch⟩ es) s fun v t => G.uses t v
  | [], _, held => by
    rw [Expr.evalBody]
    exact law.heapNull held
  | [e], _, held => by
    rw [Expr.evalBody]
    exact (law.leads_eval bodies e held).bind fun _ _ held _ used => law.leads_toHandle held used
  | e :: f :: es, _, held => by
    rw [Expr.evalBody]
    · exact law.operandBind (law.leads_eval bodies e held) fun _ _ held _ _ =>
        law.leads_evalBody bodies (f :: es) held
    · simp

end

/-! ## Bodies -/

/-- **Bodies** keep to a lawful regime, whatever the levels that calls may be nested to. -/
theorem leads_body (law : G.Lawful watch) (levels : Nat) : G.Runs (.watched watch levels) := by
  induction levels with
  | zero => exact fun _ _ held => .throw held
  | succ n ih =>
    intro b s held
    cases b with
    | routine r => exact law.leads_perform ih r held
    | script code => exact law.leads_evalBody ih code held

/-- **Evaluation** keeps to a lawful regime. -/
theorem leads_watched (law : G.Lawful watch) (e : Expr) (levels : Nat) (held : G.course.holds s) :
    G.course.Leads (e.eval (.watched watch levels)) s fun y t => y.All (G.uses t) :=
  law.leads_eval (law.leads_body levels) e held

end Regime.Lawful

end ScriptHost
