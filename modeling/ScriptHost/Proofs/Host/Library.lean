import ScriptHost.Proofs.Host.Regime

/-!
# The library under a regime

Every routine keeps to a lawful regime and yields a value that may be used, given that the bodies it
calls back into do: sorting and searching ask predicates of the program, which may do anything that
the regime allows.
-/

set_option autoImplicit false

namespace ScriptHost

open HostM Course

/-- A number that has been read is an integer without bounds, or no integer. -/
theorem fits_numeral {text : String} {l : Leaf} (run : numeral text = .ok l) :
    (Data.leaf l : Data Handle).Fits := by
  unfold numeral at run
  split at run
  · obtain ⟨r, _, rfl⟩ := Except.ok_of_map run
    exact Data.fits_of_not_integer (by simp [Leaf.kind])
  · obtain ⟨i, _, rfl⟩ := Except.ok_of_map run
    exact Data.fits_unbounded i

/-- The extreme among some values is one of them. -/
theorem mem_of_extreme {h : Heap} {keep : Ordering} {best v : Handle} {vs : List Handle}
    (run : Arithmetic.extreme h keep best vs = .ok v) : v ∈ best :: vs := by
  induction vs generalizing best with
  | nil =>
    cases run
    simp
  | cons w vs ih =>
    obtain ⟨order, _, rest⟩ := Except.ok_of_bind run
    split at rest
    · simp [ih rest]
    · have known := ih rest
      simp only [List.mem_cons] at known ⊢
      tauto

/-- The extreme of some values is one of them. -/
theorem sound_extreme {keep : Ordering} {v : Handle} {vs : List Handle} :
    HeapM.Sound (HeapM.ask fun h => Arithmetic.extreme h keep v vs) (v :: vs) fun w => [w] :=
  fun _ _ _ region given => Leads.ask region fun w run => by
    simpa using given w (mem_of_extreme run)

theorem sound_stepByOne {up : Bool} {x : Handle} :
    HeapM.Sound (do HeapM.step up x (← HeapM.newLeaf (.integer 1 none))) [x] fun _ => [] := by
  intro typed P h region given
  refine (Heap.leads_newLeaf region (Data.fits_unbounded 1)).bind fun amount t state gone made => ?_
  exact Heap.sound_step P t state (by simp [(given x (by simp)).changes gone, made.1])

namespace Regime.Lawful

variable {G : Regime} {watch : Act → HostM Unit} (law : G.Lawful watch) {s : Host}

include law

/-- What may be used before some steps may be used after them. -/
theorem lastsAll {vs : List Handle} {t : Host} (used : ∀ v ∈ vs, G.uses s v)
    (gone : G.course.goes s t) : ∀ v ∈ vs, G.uses t v :=
  fun v mem => law.lasts (used v mem) gone

/-! ## Sorting and searching -/

section Ordering

variable {before : Before}
  (asks : ∀ (a b : Handle) (s : Host), G.course.holds s → G.uses s a → G.uses s b →
    G.course.Leads (before a b) s fun _ _ => True)

include asks

/-- A merge yields nothing but what is merged. -/
theorem leads_mergeInto {a : Handle} {as bs : List Handle}
    {rest : List Handle → HostM (List Handle)} (held : G.course.holds s)
    (left : ∀ v ∈ a :: as, G.uses s v) (right : ∀ v ∈ bs, G.uses s v)
    (merges : ∀ (cs : List Handle) (t : Host), G.course.holds t → G.course.goes s t →
      (∀ v ∈ cs, G.uses t v) → G.course.Leads (rest cs) t fun vs _ => ∀ v ∈ vs, v ∈ as ∨ v ∈ cs) :
    G.course.Leads (mergeInto before a as rest bs) s fun vs _ =>
      ∀ v ∈ vs, v ∈ a :: as ∨ v ∈ bs := by
  induction bs generalizing s with
  | nil => exact .pure held fun v mem => .inl mem
  | cons b bs ih =>
    refine (asks b a s held (right b (by simp)) (left a (by simp))).bind
      fun first t held gone _ => ?_
    have left := law.lastsAll left gone
    have right := law.lastsAll right gone
    split
    · refine (ih held left (fun v mem => right v (by simp [mem])) ?_).bind fun vs u held _ among =>
        .pure held ?_
      · intro cs u heldThen further used
        exact merges cs u heldThen (G.course.trans gone further) used
      · intro v mem
        obtain rfl | mem := List.mem_cons.mp mem
        · simp
        · exact (among v mem).imp_right (List.mem_cons_of_mem b)
    · refine (merges (b :: bs) t held gone right).bind fun vs u held _ among => .pure held ?_
      intro v mem
      obtain rfl | mem := List.mem_cons.mp mem
      · simp
      · exact (among v mem).imp_left (List.mem_cons_of_mem a)

/-- A merge holds nothing but what the two lists held. -/
theorem leads_merge {as bs : List Handle} (held : G.course.holds s) (left : ∀ v ∈ as, G.uses s v)
    (right : ∀ v ∈ bs, G.uses s v) :
    G.course.Leads (merge before as bs) s fun vs _ => ∀ v ∈ vs, v ∈ as ∨ v ∈ bs := by
  induction as generalizing s bs with
  | nil => exact .pure held fun v mem => .inr mem
  | cons a as ih =>
    refine law.leads_mergeInto asks held left right fun cs t held gone used => ?_
    exact ih held (fun v mem => law.lasts (left v (by simp [mem])) gone) used

/-- Sorting yields nothing but what is sorted. -/
theorem leads_mergeSortTo {n : Nat} {vs : List Handle} (held : G.course.holds s)
    (used : ∀ v ∈ vs, G.uses s v) :
    G.course.Leads (mergeSortTo before n vs) s fun ws _ => ∀ v ∈ ws, v ∈ vs := by
  induction n generalizing s vs with
  | zero => exact .pure held fun v mem => mem
  | succ n ih =>
    unfold mergeSortTo
    split
    · exact .pure held fun v mem => mem
    · have taken : ∀ v ∈ vs.take (vs.length / 2), v ∈ vs := fun v => List.mem_of_mem_take
      have dropped : ∀ v ∈ vs.drop (vs.length / 2), v ∈ vs := fun v => List.mem_of_mem_drop
      refine (ih held fun v mem => used v (taken v mem)).bind fun left t held first one => ?_
      refine (ih held fun v mem => law.lasts (used v (dropped v mem)) first).bind
        fun right u held second two => ?_
      have gone := G.course.trans first second
      refine (law.leads_merge asks held ?_ ?_).weaken fun ws _ _ _ merged v mem => ?_
      · exact fun v mem => law.lasts (used v (taken v (one v mem))) gone
      · exact fun v mem => law.lasts (used v (dropped v (two v mem))) gone
      · exact (merged v mem).elim (fun here => taken v (one v here)) fun here =>
          dropped v (two v here)

end Ordering

/-- A search asks about one value after the other. -/
theorem leads_findFrom {equal : Handle → HostM Bool} {i : Int} {vs : List Handle}
    (held : G.course.holds s) (used : ∀ v ∈ vs, G.uses s v)
    (asks : ∀ v ∈ vs, ∀ t, G.course.holds t → G.course.goes s t → G.uses t v →
      G.course.Leads (equal v) t fun _ _ => True) :
    G.course.Leads (findFrom equal i vs) s fun _ _ => True := by
  induction vs generalizing s i with
  | nil => exact Leads.hostOf held fun _ _ => trivial
  | cons v vs ih =>
    refine (asks v (by simp) s held (G.course.refl s) (used v (by simp))).bind
      fun same t held gone _ => ?_
    split
    · exact Leads.hostOf held fun _ _ => trivial
    · refine ih held (fun w mem => law.lasts (used w (by simp [mem])) gone)
        fun w mem u held further known => ?_
      exact asks w (by simp [mem]) u held (G.course.trans gone further) known

section Calls

variable {run : Runner} (bodies : G.Runs run)

include bodies

/-- A predicate is called with values that may be used, and its answer is read. -/
theorem leads_holds {predicate a b : Handle} (held : G.course.holds s) (first : G.uses s a)
    (second : G.uses s b) : G.course.Leads (HostM.holds run predicate a b) s fun _ _ => True :=
  (law.leads_callValue bodies held (by simp [first, second])).bind fun _ _ held _ _ =>
    law.heapAsk held

/-- Whatever the predicate does in between, a sort puts the elements back that it has taken down. -/
theorem leads_sort {array before : Handle} (held : G.course.holds s) (used : G.uses s array) :
    G.course.Leads (HostM.sort run array before) s fun _ _ => True := by
  have listed := law.heap Heap.sound_elements held (by simpa using used)
  cases contents : s.heap.data array with
  | array a =>
    have read : onHeap (HeapM.elements array) s = .ok a.items s := by
      simp only [onHeap, HeapM.elements, HeapM.ask, contents]
    have known := (listed.ok read).2.2
    have whole : HostM.sort run array before s = (do
        let sorted ← mergeSort (HostM.holds run before) a.items
        onHeap (HeapM.setElements array sorted)) s := by
      simp only [HostM.sort, Bind.bind, EStateM.bind, read]
    refine Leads.continued ?_ whole (G.course.refl s)
    refine (law.leads_mergeSortTo (fun a b s held => law.leads_holds bodies held) held known).bind
      fun sorted t after gone among => ?_
    refine law.restore held contents among gone after (law.lasts used gone) fun v mem => ?_
    exact law.lasts (known v (among v mem)) gone
  | leaf _ | dictionary _ | record _ =>
    refine Leads.of_error (e := .fault (.notAnArray (s.heap.data array).kind)) (t := s) ?_ held
      (G.course.refl s)
    simp only [HostM.sort, Bind.bind, EStateM.bind, onHeap, HeapM.elements, HeapM.ask, contents]

/-- A search from the front yields a position, and no value. -/
theorem leads_find {array elem equal : Handle} (held : G.course.holds s) (used : G.uses s array)
    (sought : G.uses s elem) :
    G.course.Leads (HostM.find run array elem equal) s fun _ _ => True := by
  refine (law.heapAsk held).bind fun bounds t held first _ => ?_
  have used := law.lasts used first
  refine (law.heap Heap.sound_elements held (by simpa using used)).bind
    fun items u held second listed => ?_
  have sought := law.lasts sought (G.course.trans first second)
  exact law.leads_findFrom held listed fun v _ w held gone known =>
    law.leads_holds bodies held known (law.lasts sought gone)

/-- A binary search reads elements of its array, and those may be used. -/
theorem leads_searchTo {array elem before : Handle} {n : Nat} {low high : Int}
    (held : G.course.holds s) (used : G.uses s array) (sought : G.uses s elem) :
    G.course.Leads (searchTo run array elem before n low high) s fun _ _ => True := by
  induction n generalizing s low high with
  | zero => exact Leads.hostOf held fun _ _ => trivial
  | succ n ih =>
    unfold searchTo
    split
    · exact Leads.hostOf held fun _ _ => trivial
    refine Leads.hostOfBind held fun mid _ => ?_
    refine (law.heapValue Heap.sound_elementAt held (by simpa using used)).bind
      fun item t held first known => ?_
    refine (law.leads_holds bodies held known (law.lasts sought first)).bind
      fun below u held second _ => ?_
    have gone := G.course.trans first second
    split
    · exact ih held (law.lasts used gone) (law.lasts sought gone)
    refine (law.leads_holds bodies held (law.lasts sought gone) (law.lasts known second)).bind
      fun above w held third _ => ?_
    have gone := G.course.trans gone third
    split
    · exact ih held (law.lasts used gone) (law.lasts sought gone)
    · exact Leads.hostOf held fun _ _ => trivial

/-- So does the routine that starts it. -/
theorem leads_findSorted {array elem before : Handle} (held : G.course.holds s)
    (used : G.uses s array) (sought : G.uses s elem) :
    G.course.Leads (HostM.findSorted run array elem before) s fun _ _ => True := by
  refine (law.heapAsk held).bind fun bounds t held first _ => ?_
  refine (law.heapAsk held).bind fun length u held second _ => ?_
  have gone := G.course.trans first second
  exact law.leads_searchTo bodies held (law.lasts used gone) (law.lasts sought gone)

end Calls

/-! ## Routines -/

open Routine

theorem leads_integerParam {name : String} (held : G.course.holds s) :
    G.course.Leads (integerParam name) s fun _ _ => True :=
  law.paramBind held fun _ _ => law.heapAsk held

theorem leads_realParam {name : String} (held : G.course.holds s) :
    G.course.Leads (realParam name) s fun _ _ => True :=
  law.paramBind held fun _ _ => law.heapAsk held

theorem leads_answerBoolean {b : Bool} (held : G.course.holds s) :
    G.course.Leads (answerBoolean b) s fun v t => G.uses t v :=
  law.heapLeaf (Data.fits_of_not_integer (by simp [Leaf.kind])) held

theorem leads_answerInteger {i : Integer} (held : G.course.holds s) :
    G.course.Leads (answerInteger i) s fun v t => G.uses t v :=
  law.heapLeaf (Data.fits_unbounded i) held

theorem leads_answerReal {r : Double} (held : G.course.holds s) :
    G.course.Leads (answerReal r) s fun v t => G.uses t v :=
  law.heapLeaf (Data.fits_of_not_integer (by simp [Leaf.kind])) held

theorem leads_answerNull (held : G.course.holds s) :
    G.course.Leads answerNull s fun v t => G.uses t v := law.heapNull held

/-- The routine that yields the extreme of its parameters. -/
theorem leads_extreme {keep : Ordering} {values : List Handle} (held : G.course.holds s)
    (used : ∀ v ∈ values, G.uses s v) :
    G.course.Leads (extreme keep values) s fun v t => G.uses t v := by
  cases values with
  | nil => exact law.leads_answerNull held
  | cons v vs => exact law.heapValue sound_extreme held used

theorem leads_faultKindParam {name : String} (held : G.course.holds s) :
    G.course.Leads (faultKindParam name) s fun _ _ => True := by
  refine (law.leads_integerParam held).bind fun index t held _ _ => ?_
  split
  · exact .pure held trivial
  · exact Leads.fail held

/-- A function that is found by its name and arity may be used. -/
theorem leads_overloadOf {name : String} {arity : Integer} (held : G.course.holds s) :
    G.course.Leads (overloadOf name arity) s fun v t => G.uses t v := by
  unfold overloadOf
  split
  · exact Leads.fail held
  · exact Leads.hostLookBind (Leads.hostOf held fun v run => law.overload held run)

section Perform

variable {body : Body → HostM Handle} (bodies : G.Runs ⟨body, watch⟩)

include bodies

/-- **Routines** keep to a lawful regime. -/
theorem leads_perform (r : Routine) (held : G.course.holds s) :
    G.course.Leads (r.perform ⟨body, watch⟩) s fun v t => G.uses t v := by
  cases r with
  | copy =>
    exact law.paramBind held fun v used => law.heapValue Heap.sound_copy held (by simpa using used)
  | clone =>
    refine law.paramBind held fun v used => (law.heapLook held).bind fun kind t held gone _ => ?_
    split
    · exact Leads.fail held
    · exact law.heapValue Heap.sound_cloneWith held (by simpa using law.lasts used gone)
  | convert k =>
    exact law.paramBind held fun v used => law.heapValue Heap.sound_cast held (by simpa using used)
  | numeralOf =>
    refine law.paramBind held fun v used => (law.heapAsk held).bind fun text t held _ _ => ?_
    exact Leads.hostOfBind held fun l run => law.heapLeaf (fits_numeral run) held
  | isLocked =>
    exact law.paramBind held fun v _ => Leads.hostLookBind (law.leads_answerBoolean held)
  | lock =>
    refine law.paramBind held fun v used => ?_
    exact (law.heapPlain Heap.sound_lock held (by simpa using used)).bind fun _ _ held _ _ =>
      law.leads_answerNull held
  | isKind k =>
    exact law.paramBind held fun v _ => (law.heapLook held).bind fun _ _ held _ _ =>
      law.leads_answerBoolean held
  | typeOf =>
    exact law.paramBind held fun v used =>
      law.heapValue Heap.sound_typeOf held (by simpa using used)
  | typeId =>
    exact law.paramBind held fun v _ => (law.heapLook held).bind fun _ _ held _ _ =>
      law.leads_answerInteger held
  | isExactlyEqual =>
    exact law.paramBind held fun _ _ => law.paramBind held fun _ _ =>
      Leads.hostLookBind (law.leads_answerBoolean held)
  | symbolExists =>
    refine law.paramBind held fun v _ => (law.heapAsk held).bind fun key t held _ _ => ?_
    exact Leads.hostLookBind (law.leads_answerBoolean held)
  | symbolOfFunction =>
    refine law.paramBind held fun v _ => (law.heapAsk held).bind fun name t held _ _ => ?_
    exact (law.leads_integerParam held).bind fun arity u held _ _ => law.leads_overloadOf held
  | extremeElement keep =>
    refine law.paramBind held fun v used => ?_
    exact (law.heap Heap.sound_elements held (by simpa using used)).bind fun vs t held _ used =>
      law.leads_extreme held used
  | extremeOfTwo keep =>
    exact law.paramBind held fun x one => law.paramBind held fun y two =>
      law.leads_extreme held (by simp [one, two])
  | extremeOfThree keep =>
    refine law.paramBind held fun x one => law.paramBind held fun y two =>
      law.paramBind held fun z three => ?_
    exact law.leads_extreme held (by simp [one, two, three])
  | step up =>
    refine law.paramBind held fun x used => ?_
    exact (law.heapPlain sound_stepByOne held (by simpa using used)).bind fun _ _ held _ _ =>
      law.leads_answerNull held
  | stepBy up =>
    refine law.paramBind held fun x one => law.paramBind held fun amount two => ?_
    exact (law.heapPlain Heap.sound_step held (by simp [one, two])).bind fun _ _ held _ _ =>
      law.leads_answerNull held
  | append =>
    refine law.paramBind held fun a one => law.paramBind held fun elem two => ?_
    exact (law.operate .add held one two).bind fun _ _ held _ _ => law.leads_answerNull held
  | insert =>
    refine (law.leads_integerParam held).bind fun position t held _ _ => ?_
    refine law.paramBind held fun a one => law.paramBind held fun elem two => ?_
    exact (law.operate (.insertAt position) held one two).bind fun _ _ held _ _ =>
      law.leads_answerNull held
  | swap =>
    refine (law.leads_integerParam held).bind fun i t held _ _ =>
      (law.leads_integerParam held).bind fun j u held _ _ => ?_
    refine law.paramBind held fun a used => ?_
    exact (law.heapPlain Heap.sound_swap held (by simpa using used)).bind fun _ _ held _ _ =>
      law.leads_answerNull held
  | sort =>
    refine law.paramBind held fun a used => law.paramBind held fun before _ => ?_
    exact (law.leads_sort bodies held used).bind fun _ _ held _ _ => law.leads_answerNull held
  | find =>
    refine law.paramBind held fun a one => law.paramBind held fun elem two =>
      law.paramBind held fun equal _ => ?_
    exact (law.leads_find bodies held one two).bind fun _ _ held _ _ => law.leads_answerInteger held
  | findSorted =>
    refine law.paramBind held fun a one => law.paramBind held fun elem two =>
      law.paramBind held fun before _ => ?_
    exact (law.leads_findSorted bodies held one two).bind fun _ _ held _ _ =>
      law.leads_answerInteger held
  | lessThan | greaterThan | equal =>
    refine law.paramBind held fun a _ => law.paramBind held fun b _ => ?_
    exact (law.heapAsk held).bind fun _ _ held _ _ => law.leads_answerBoolean held
  | abs =>
    refine law.paramBind held fun x _ => (law.heapLook held).bind fun kind t held _ _ => ?_
    split
    · refine (law.leads_integerParam held).bind fun i u held _ _ => ?_
      exact Leads.hostOfBind held fun _ _ => law.leads_answerInteger held
    · exact (law.leads_realParam held).bind fun _ _ held _ _ => law.leads_answerReal held
  | sqrt | ln | log =>
    refine (law.leads_realParam held).bind fun x t held _ _ => ?_
    exact Leads.hostOfBind held fun _ _ => law.leads_answerReal held
  | logBase =>
    refine (law.leads_realParam held).bind fun x t held _ _ => Leads.hostOfBind held fun _ _ => ?_
    refine (law.leads_realParam held).bind fun base u held _ _ =>
      Leads.hostOfBind held fun _ _ => ?_
    exact law.leads_answerReal held
  | div | mod =>
    refine (law.leads_integerParam held).bind fun x t held _ _ =>
      (law.leads_integerParam held).bind fun y u held _ _ => ?_
    exact Leads.hostOfBind held fun _ _ => law.leads_answerInteger held
  | test property =>
    exact (law.leads_realParam held).bind fun _ _ held _ _ => law.leads_answerBoolean held
  | round rule =>
    refine law.paramBind held fun x _ => (law.heapLook held).bind fun kind t held _ _ => ?_
    split
    · exact (law.leads_integerParam held).bind fun _ _ held _ _ => law.leads_answerInteger held
    · exact (law.leads_realParam held).bind fun _ _ held _ _ => law.leads_answerReal held
  | seed =>
    refine (law.leads_integerParam held).bind fun seed t held _ _ => ?_
    obtain ⟨after, gone⟩ := law.aside t (.ofSeed seed.toUInt64) t.log held
    exact (law.leads_answerNull after).continued rfl gone
  | randomBoolean =>
    exact (law.aside.leads_draw held).bind fun _ _ held _ _ => law.leads_answerBoolean held
  | randomInteger =>
    exact (law.aside.leads_draw held).bind fun _ _ held _ _ => law.leads_answerInteger held
  | randomIntegerBelow =>
    refine (law.leads_integerParam held).bind fun bound t held _ _ => ?_
    exact (law.aside.leads_tryDraw held).bind fun _ _ held _ _ => law.leads_answerInteger held
  | randomIntegerBetween =>
    refine (law.leads_integerParam held).bind fun low t held _ _ =>
      (law.leads_integerParam held).bind fun high u held _ _ => ?_
    exact (law.aside.leads_tryDraw held).bind fun _ _ held _ _ => law.leads_answerInteger held
  | randomReal =>
    exact (law.aside.leads_draw held).bind fun _ _ held _ _ => law.leads_answerReal held
  | randomRealBelow =>
    refine (law.leads_realParam held).bind fun bound t held _ _ => ?_
    exact (law.aside.leads_draw held).bind fun _ _ held _ _ => law.leads_answerReal held
  | randomRealBetween =>
    refine (law.leads_realParam held).bind fun low t held _ _ =>
      (law.leads_realParam held).bind fun high u held _ _ => ?_
    exact (law.aside.leads_draw held).bind fun _ _ held _ _ => law.leads_answerReal held
  | onErrorPush =>
    refine (law.leads_faultKindParam held).bind fun kind t held _ _ =>
      law.paramBind held fun v used => ?_
    exact (law.pushHandler held used).bind fun _ _ held _ _ => law.leads_answerNull held
  | onErrorInvoke =>
    refine (law.leads_faultKindParam held).bind fun kind t held _ _ => ?_
    exact (law.leads_invokeHandlers bodies kind _ _ held).bind fun _ _ held _ _ =>
      law.leads_answerBoolean held
  | onErrorPop =>
    refine (law.leads_faultKindParam held).bind fun kind t held _ _ => ?_
    exact (law.popHandler held).bind fun _ _ held _ _ => law.leads_answerNull held
  | terminate => exact Leads.fail held
  | makeVersion =>
    refine (law.leads_integerParam held).bind fun major t held _ _ => ?_
    refine (law.leads_integerParam held).bind fun minor u held _ _ => ?_
    refine (law.leads_integerParam held).bind fun patch w held _ _ => ?_
    exact law.heapValue Heap.sound_makeVersion held (by simp)
  | versionLessThan | versionEqual =>
    refine law.paramBind held fun lhs one => ?_
    refine (law.heapPlain Heap.sound_versionNumbers held (by simpa using one)).bind
      fun a t held _ _ => ?_
    refine law.paramBind held fun rhs two => ?_
    refine (law.heapPlain Heap.sound_versionNumbers held (by simpa using two)).bind
      fun b u held _ _ => ?_
    exact law.leads_answerBoolean held
  | versionAsString =>
    refine law.paramBind held fun v used => ?_
    refine (law.heapPlain Heap.sound_versionNumbers held (by simpa using used)).bind
      fun numbers t held _ _ => ?_
    exact law.heapLeaf (Data.fits_of_not_integer (by simp [Leaf.kind])) held

end Perform

end Regime.Lawful

end ScriptHost
