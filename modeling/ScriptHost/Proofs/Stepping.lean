import ScriptHost.Proofs.Heap.Confined
import ScriptHost.Proofs.Host.Predicates

/-!
# Stepping numbers

A step adds an amount to an integer in place, or subtracts it. It is made of two moves, each of
which refuses a number that is no integer: the amount is given its sign, and the signed amount is
added. So a step is exact, with one exception (`HeapM.stepped_eq_ok_iff`): the negative of the least
integer is no integer, and a step down by it is refused even where the difference is one. A step
that is refused changes nothing.

An array is stepped element by element, and the amount is read anew for each of them. Where the
amount is itself an element, those behind it are stepped by what it has become
(`HeapM.amountAfter`): by twice the amount on the way up, and not at all on the way down. Every
element is stepped by the one amount just if no element stands behind the amount, or if the amount
is zero.
-/

set_option autoImplicit false

namespace ScriptHost

open HostM

/-! ## Numbers that are integers -/

namespace Integer

/-- A number is turned into the integer that has its value. -/
theorem ofInt?_eq_some_iff {i : Int} {n : Integer} : ofInt? i = some n ↔ n.toInt = i := by
  constructor
  · exact toInt_of_ofInt?
  · rintro rfl
    exact ofInt?_toInt n

/-- The integers are the numbers from the least one to the greatest one. -/
theorem exists_toInt_iff {i : Int} : (∃ n : Integer, n.toInt = i) ↔ least ≤ i ∧ i ≤ greatest := by
  constructor
  · rintro ⟨n, rfl⟩
    exact ⟨least_le_toInt n, toInt_le_greatest n⟩
  · rintro ⟨low, high⟩
    exact ⟨Int64.ofInt i, toInt_ofInt_of_mem low high⟩

end Integer

theorem Cell.number_inj {i j : Integer} : Cell.number i = Cell.number j ↔ i = j := by
  simp [Cell.number]

namespace HeapM

variable {up : Bool} {x a y : Integer} {i : Int} {f : Fault}

/-- What passes the check of range is the integer with that value. -/
theorem inRange_eq_ok_iff : inRange i = .ok y ↔ y.toInt = i := by
  rw [← Integer.ofInt?_eq_some_iff, inRange]
  cases Integer.ofInt? i <;> simp

/-- The check has one way to fail. -/
theorem inRange_cases (i : Int) :
    (∃ y, inRange i = .ok y) ∨ inRange i = .error .integerOverflow := by
  rw [inRange]
  cases Integer.ofInt? i <;> simp

/-- Only the negative of the least integer is no integer. -/
theorem exists_signed_iff :
    (∃ d : Integer, d.toInt = stepSign up * a.toInt) ↔ up = true ∨ a.toInt ≠ Integer.least := by
  have low := Integer.least_le_toInt a
  have high := Integer.toInt_le_greatest a
  rw [Integer.exists_toInt_iff]
  simp only [Integer.least, Integer.greatest] at low high ⊢
  cases up with
  | true =>
    simp only [stepSign, if_true, true_or, iff_true]
    omega
  | false =>
    simp only [stepSign, Bool.false_eq_true, if_false, false_or]
    omega

/-- The integer that a step leads to, or the fault of a move that is refused. -/
def stepped (up : Bool) (x a : Integer) : Except Fault Integer := do
  let delta ← inRange (stepSign up * a.toInt)
  inRange (x.toInt + delta.toInt)

/-- **A step is exact** where the amount can be given its sign. -/
theorem stepped_eq_ok_iff :
    stepped up x a = .ok y ↔ y.toInt = x.toInt + stepSign up * a.toInt ∧
      (up = true ∨ a.toInt ≠ Integer.least) := by
  rw [← exists_signed_iff (a := a)]
  rcases inRange_cases (stepSign up * a.toInt) with ⟨d, signed⟩ | refused
  · have same : d.toInt = stepSign up * a.toInt := inRange_eq_ok_iff.mp signed
    have moves : stepped up x a = inRange (x.toInt + d.toInt) := by
      simp only [stepped, Bind.bind, Except.bind, signed]
    rw [moves, inRange_eq_ok_iff, same]
    exact ⟨fun exact => ⟨exact, d, same⟩, And.left⟩
  · have stops : stepped up x a = .error .integerOverflow := by
      simp only [stepped, Bind.bind, Except.bind, refused]
    rw [stops]
    constructor
    · intro impossible
      cases impossible
    · rintro ⟨-, d, same⟩
      cases (inRange_eq_ok_iff.mpr same).symm.trans refused

/-- So has a step. -/
theorem stepped_cases (up : Bool) (x a : Integer) :
    (∃ y, stepped up x a = .ok y) ∨ stepped up x a = .error .integerOverflow := by
  unfold stepped
  rcases inRange_cases (stepSign up * a.toInt) with ⟨d, signed⟩ | refused
  · rw [signed]
    exact inRange_cases _
  · rw [refused]
    exact .inr rfl

end HeapM

/-! ## One number -/

namespace Heap

variable {h : Heap} {v w : Handle} {y : Integer}

/-- The heap in which a new number has been made and put in the place of a cell. -/
def renumber (h : Heap) (v : Handle) (y : Integer) : Heap :=
  (h.push (.number y)).setCell v (.number y)

theorem cell_renumber_self (made : h.Made v) : (h.renumber v y).cell v = .number y :=
  cell_setCell_self _ v _ (made_push.mpr (.inl made))

/-- Other cells are as they were. -/
theorem cell_renumber_ne (made : h.Made w) (other : w ≠ v) :
    (h.renumber v y).cell w = h.cell w := by
  rw [renumber, cell_setCell_ne _ _ other, cell_push_of_made made]

/-- A new number changes one cell of those that there are. -/
theorem confined_renumber (h : Heap) (v : Handle) (y : Integer) :
    h.Confined (· = v) (h.renumber v y) where
  size_le := by
    rw [renumber, size_setCell, size_push]
    exact Nat.le_succ _
  cell _ made other := cell_renumber_ne made other

/-- A change within some cells is one within more. -/
theorem Confined.mono {S T : Handle → Prop} {h h' : Heap} (within : h.Confined S h')
    (more : ∀ w, S w → T w) : h.Confined T h' where
  size_le := within.size_le
  cell w made outside := within.cell w made fun inside => outside (more w inside)

end Heap

namespace HeapM

variable {up : Bool} {x a y : Integer} {b : Option (Bounds Integer)} {h h' : Heap}
  {target amount v : Handle} {n : Nat} {f : Fault} {items : List Handle}

/-- A number is stepped by reading the amount and the number, and by assigning what the step leads
to. -/
theorem stepTo_number (held : h.cell target = .number x)
    (given : h.data amount = .leaf (.integer a b)) :
    stepTo up amount (n + 1) target h =
      (of (stepped up x a) >>= fun y => newLeaf (.integer y none) >>=
        fun source => assign target source) h := by
  have contents := Heap.data_of_number held
  have kind : dataOf target h = .ok (.leaf (.integer x none)) h := by rw [dataOf, look, contents]
  have step : asInteger amount h = .ok a h := by simp only [asInteger, ask, given, Data.asInteger]
  have number : asInteger target h = .ok x h := by
    simp only [asInteger, ask, contents, Data.asInteger]
  rw [stepTo, bind_of_ok kind]
  show (asInteger amount >>= _) h = _
  rw [bind_of_ok step]
  rcases inRange_cases (stepSign up * a.toInt) with ⟨d, signed⟩ | refused
  · have first : of (inRange (stepSign up * a.toInt)) h = .ok d h := by rw [signed]; rfl
    have moves : stepped up x a = inRange (x.toInt + d.toInt) := by
      simp only [stepped, Bind.bind, Except.bind, signed]
    rw [bind_of_ok first, bind_of_ok number, moves]
  · have first : of (inRange (stepSign up * a.toInt)) h = .error .integerOverflow h := by
      rw [refused]; rfl
    have stops : of (stepped up x a) h = .error .integerOverflow h := by
      simp only [stepped, Bind.bind, Except.bind, refused]
      rfl
    rw [bind_of_error first, bind_of_error stops]

/-- One number is stepped where the result is an integer. -/
theorem stepTo_of_ok (held : h.cell target = .number x)
    (given : h.data amount = .leaf (.integer a b)) (step : stepped up x a = .ok y) :
    stepTo up amount (n + 1) target h = .ok () (h.renumber target y) := by
  have made := Heap.made_of_number held
  have other : target ≠ ⟨h.size⟩ := fun same => h.not_made_next (same ▸ made)
  have there : (h.push (.number y)).cell target = .number x :=
    (Heap.cell_push_of_made made).trans held
  have source : (h.push (.number y)).data ⟨h.size⟩ = .leaf (.integer y none) :=
    Heap.data_of_number (Heap.cell_push_new h _)
  have led : of (stepped up x a) h = .ok y h := by rw [step]; rfl
  have new : newLeaf (.integer y none) h = .ok ⟨h.size⟩ (h.push (.number y)) := rfl
  rw [stepTo_number held given, bind_of_ok led, bind_of_ok new]
  apply run_assignLeaf there (by simp) other
  rw [source]
  rfl

/-- Where it is none, nothing changes. -/
theorem stepTo_of_error (held : h.cell target = .number x)
    (given : h.data amount = .leaf (.integer a b)) (step : stepped up x a = .error f) :
    stepTo up amount (n + 1) target h = .error f h := by
  have stops : of (stepped up x a) h = .error f h := by rw [step]; rfl
  rw [stepTo_number held given, bind_of_error stops]

/-! ## The elements of an array -/

/-- The amount by which an element is stepped when these have been before it: the amount may be one
of them. -/
def amountAfter (up : Bool) (amount : Handle) (a : Int) (before : List Handle) : Int :=
  if amount ∈ before then a + stepSign up * a else a

/-- Each element has become the sum of what it was and the amount at its turn. -/
def SteppedAll (up : Bool) (amount : Handle) (a : Int) (items : List Handle) (h h' : Heap) : Prop :=
  ∀ before v after x, items = before ++ v :: after → h.cell v = .number x →
    ∃ y, h'.cell v = .number y ∧ y.toInt = x.toInt + stepSign up * amountAfter up amount a before

/-- Each such sum is an integer. -/
def SumsFit (up : Bool) (amount : Handle) (a : Int) (items : List Handle) (h : Heap) : Prop :=
  ∀ before v after x, items = before ++ v :: after → h.cell v = .number x →
    ∃ y : Integer, y.toInt = x.toInt + stepSign up * amountAfter up amount a before

/-- Numbers stay what they are where values are made. -/
theorem SteppedAll.extends {h'' : Heap} {i : Int} (all : SteppedAll up amount i items h h')
    (more : h'.Extends h'') : SteppedAll up amount i items h h'' := by
  intro before v after x split held
  obtain ⟨y, cell, sum⟩ := all before v after x split held
  exact ⟨y, (more.cell v (Heap.made_of_number cell)).trans cell, sum⟩

/-- What the amount is after an element has been stepped, and what that means for the rest. -/
theorem exists_amount (held : h.cell v = .number x) (given : h.data amount = .leaf (.integer a b))
    (step : stepped up x a = .ok y) :
    ∃ a' b', (h.renumber v y).data amount = .leaf (.integer a' b') ∧
      (up = true ∨ a'.toInt ≠ Integer.least) ∧ ∀ before, v ∉ before →
      amountAfter up amount a'.toInt before = amountAfter up amount a.toInt (v :: before) := by
  obtain ⟨sum, signed⟩ := stepped_eq_ok_iff.mp step
  have made := Heap.made_of_number held
  by_cases itself : amount = v
  · subst itself
    -- the amount has been stepped by itself
    obtain ⟨rfl, -⟩ : x = a ∧ none = b := by
      have same := (Heap.data_of_number held).symm.trans given
      simpa using same
    refine ⟨y, none, Heap.data_of_number (Heap.cell_renumber_self made), ?_, ?_⟩
    · cases up with
      | true => exact .inl rfl
      | false =>
        right
        simp only [stepSign, Bool.false_eq_true, if_false] at sum
        rw [Integer.least]
        omega
    · intro before new
      simp only [amountAfter, new, if_false, List.mem_cons_self, if_true]
      exact sum
  · refine ⟨a, b, ?_, signed, ?_⟩
    · have there : h.Made amount :=
        Heap.made_of_kind (by simp [Heap.kind, given, Data.kind, Leaf.kind])
      rw [Heap.data_congr (Heap.cell_renumber_ne there itself), given]
    · intro before _
      simp only [amountAfter, List.mem_cons, itself, false_or]

/-- What is left of the numbers when the first has been stepped: the others are what they were. -/
theorem numbers_renumber (numbers : ∀ w ∈ v :: items, ∃ x, h.cell w = .number x) (new : v ∉ items)
    (y : Integer) :
    (∀ w ∈ items, (h.renumber v y).cell w = h.cell w) ∧ ∀ w ∈ items, ∃ x,
      (h.renumber v y).cell w = .number x := by
  have same : ∀ w ∈ items, (h.renumber v y).cell w = h.cell w := by
    intro w mem
    obtain ⟨x, held⟩ := numbers w (List.mem_cons_of_mem v mem)
    apply Heap.cell_renumber_ne (Heap.made_of_number held)
    rintro rfl
    exact new mem
  refine ⟨same, ?_⟩
  intro w mem
  rw [same w mem]
  exact numbers w (List.mem_cons_of_mem v mem)

/-- **Stepping an array**, when it succeeds: only the elements change, and each is stepped by the
amount at its turn. The induction is on the elements, with the amount as the elements before have
left it. -/
theorem steppedAll_of_forM (distinct : items.Nodup)
    (numbers : ∀ v ∈ items, ∃ x, h.cell v = .number x)
    (given : h.data amount = .leaf (.integer a b))
    (ran : items.forM (stepTo up amount (n + 1)) h = .ok () h') :
    h.Confined (· ∈ items) h' ∧ SteppedAll up amount a.toInt items h h' := by
  induction items generalizing h a b with
  | nil =>
    cases ran
    refine ⟨.refl _, ?_⟩
    intro before v after x split
    simp at split
  | cons v items ih =>
    obtain ⟨new, distinct⟩ := List.nodup_cons.mp distinct
    obtain ⟨x, held⟩ := numbers v List.mem_cons_self
    have made := Heap.made_of_number held
    rcases stepped_cases up x a with ⟨y, step⟩ | step
    · have rest : items.forM (stepTo up amount (n + 1)) (h.renumber v y) = .ok () h' :=
        (bind_of_ok (stepTo_of_ok held given step)
          fun _ => items.forM (stepTo up amount (n + 1))).symm.trans ran
      obtain ⟨a', b', given', -, amounts⟩ := exists_amount held given step
      obtain ⟨same, left⟩ := numbers_renumber numbers new y
      obtain ⟨within, all⟩ := ih distinct left given' rest
      refine ⟨((Heap.confined_renumber h v y).mono (by simp)).trans
        (within.mono (by simp +contextual)), ?_⟩
      intro before u after z split cell
      cases before with
      | nil =>
        obtain ⟨rfl, -⟩ := List.cons.inj split
        obtain rfl : x = z := Cell.number_inj.mp (held.symm.trans cell)
        refine ⟨y, ?_, (stepped_eq_ok_iff.mp step).1⟩
        rw [within.cell v ((Heap.confined_renumber h v y).size_le.trans_lt' made) new,
          Heap.cell_renumber_self made]
      | cons w before =>
        obtain ⟨rfl, rest⟩ := List.cons.inj split
        have inside : u ∈ items := by simp [rest]
        have absent : v ∉ before := fun mem => new (by simp [rest, mem])
        obtain ⟨z', after, sum⟩ := all before u after z rest ((same u inside).trans cell)
        exact ⟨z', after, by rw [sum, amounts before absent]⟩
    · have failed := bind_of_error (stepTo_of_error (n := n) held given step) fun _ =>
        items.forM (stepTo up amount (n + 1))
      cases failed.symm.trans ran

/-- **Stepping an array succeeds** where all sums are integers and the amount can be given its
sign. -/
theorem forM_of_sumsFit (distinct : items.Nodup) (numbers : ∀ v ∈ items, ∃ x, h.cell v = .number x)
    (given : h.data amount = .leaf (.integer a b)) (signed : up = true ∨ a.toInt ≠ Integer.least)
    (fit : SumsFit up amount a.toInt items h) :
    ∃ h', items.forM (stepTo up amount (n + 1)) h = .ok () h' := by
  induction items generalizing h a b with
  | nil => exact ⟨h, rfl⟩
  | cons v items ih =>
    obtain ⟨new, distinct⟩ := List.nodup_cons.mp distinct
    obtain ⟨x, held⟩ := numbers v List.mem_cons_self
    obtain ⟨y, sum⟩ := fit [] v items x rfl held
    have step : stepped up x a = .ok y := stepped_eq_ok_iff.mpr ⟨sum, signed⟩
    obtain ⟨a', b', given', signed', amounts⟩ := exists_amount held given step
    obtain ⟨same, left⟩ := numbers_renumber numbers new y
    have fit' : SumsFit up amount a'.toInt items (h.renumber v y) := by
      intro before u after z split cell
      have inside : u ∈ items := by simp [split]
      have absent : v ∉ before := fun mem => new (by simp [split, mem])
      rw [amounts before absent]
      exact fit (v :: before) u after z (by rw [split, List.cons_append])
        ((same u inside).symm.trans cell)
    obtain ⟨h', rest⟩ := ih distinct left given' signed' fit'
    exact ⟨h', (bind_of_ok (stepTo_of_ok held given step) _).trans rest⟩

/-- **One amount for all**: just if no element stands behind the amount, or if the amount is
zero. -/
theorem SteppedAll.by_one_amount_iff (all : SteppedAll up amount a.toInt items h h')
    (numbers : ∀ v ∈ items, ∃ x, h.cell v = .number x) :
    (∀ v ∈ items, ∀ x, h.cell v = .number x → ∃ y, h'.cell v = .number y ∧
      y.toInt = x.toInt + stepSign up * a.toInt) ↔ amount ∉ items.dropLast ∨ a.toInt = 0 := by
  constructor
  · intro one
    by_contra! other
    obtain ⟨inside, moves⟩ := other
    -- the last element has been stepped by what the amount has become
    obtain ⟨before, v, rfl⟩ := (List.eq_nil_or_concat' items).resolve_left
      (List.ne_nil_of_mem (List.mem_of_mem_dropLast inside))
    rw [List.dropLast_concat] at inside
    obtain ⟨x, held⟩ := numbers v (by simp)
    obtain ⟨y, after, sum⟩ := one v (by simp) x held
    obtain ⟨z, after', sum'⟩ := all before v [] x rfl held
    obtain rfl : y = z := Cell.number_inj.mp (after.symm.trans after')
    rw [amountAfter, if_pos inside, sum] at sum'
    cases up <;> simp only [stepSign, Bool.false_eq_true, if_false, if_true] at sum' <;> omega
  · intro exact v mem x held
    obtain ⟨before, after, rfl⟩ := List.append_of_mem mem
    obtain ⟨y, cell, sum⟩ := all before v after x rfl held
    refine ⟨y, cell, ?_⟩
    rcases exact with last | zero
    · have absent : amount ∉ before := by
        intro mem
        apply last
        rw [List.dropLast_append_of_ne_nil (by simp)]
        exact List.mem_append_left _ mem
      rwa [amountAfter, if_neg absent] at sum
    · rw [sum, amountAfter, zero]
      simp

/-- A step of a number, with all the levels there are. -/
theorem step_eq_stepTo (target amount : Handle) (h : Heap) :
    step up target amount h = stepTo up amount (h.size + 1) target h := rfl

/-- A step of an array steps its elements. -/
theorem step_array (up : Bool) (amount : Handle) {q : Sequence Handle}
    (held : h.data target = .array q) :
    ∃ n, step up target amount h = q.items.forM (stepTo up amount (n + 1)) h := by
  have made : h.Made target := Heap.made_of_array held
  obtain ⟨n, levels⟩ : ∃ n, h.size = n + 1 := Nat.exists_eq_succ_of_ne_zero fun none => by
    rw [Heap.Made, none] at made
    omega
  have contents : dataOf target h = .ok (.array q) h := by rw [dataOf, look, held]
  refine ⟨n, ?_⟩
  rw [step_eq_stepTo, levels, stepTo, bind_of_ok contents]

end HeapM

/-! ## Calls -/

namespace Host

variable {s : Host} {key : String} {up : Bool} {target amount array : Handle} {x a : Integer}
  {b : Option (Bounds Integer)} {h : Heap} {f : Fault} {n : Nat} {q : Sequence Handle}

/-- Inside the call the two parameters are found under their names. -/
theorem params_step (s : Host) (target amount : Handle) :
    let t := s.inCall [("x", target), ("amt", amount)]
    param "x" t = .ok target t ∧ param "amt" t = .ok amount t :=
  ⟨param_inCall (by decide) rfl, param_inCall (by decide) rfl⟩

theorem takes_stepBy (up : Bool) : (Routine.stepBy up).Takes ["x", "amt"] := ⟨rfl, by decide⟩

/-- A call of the routine steps its first argument by its second, and answers Null. -/
theorem call_of_step (offered : s.Offers key (.stepBy up)) (ready : s.Ready 1)
    (ran : HeapM.step up target amount s.heap = .ok () h) :
    ∃ k, call (.free (n + 1)) key [target, amount] s =
      .ok ⟨h.size⟩ (s.grown (h.push ⟨.leaf .null, true⟩) k) := by
  obtain ⟨first, second⟩ := params_step s target amount
  let inside := s.inCall [("x", target), ("amt", amount)]
  have stepped : onHeap (HeapM.step up target amount) inside =
      .ok () (inside.grown h inside.env.stack.attained) := by
    have run : HeapM.step up target amount inside.heap = .ok () h := ran
    simp only [onHeap, run]
    rfl
  have performed : (Routine.stepBy up).perform (.free n) inside =
      .ok ⟨h.size⟩ (inside.grown (h.push ⟨.leaf .null, true⟩) inside.env.stack.attained) := by
    simp only [Routine.perform, Bind.bind, EStateM.bind, inside, first, second] at stepped ⊢
    rw [stepped]
    rfl
  exact ⟨_, (run_call [target, amount] offered (takes_stepBy up) rfl ready).trans
    (always_left performed)⟩

/-- A step that is refused makes the call fail. -/
theorem call_of_refused (offered : s.Offers key (.stepBy up)) (ready : s.Ready 1)
    (ran : HeapM.step up target amount s.heap = .error f h) :
    ∃ k, call (.free (n + 1)) key [target, amount] s = .error (.fault f) (s.grown h k) := by
  obtain ⟨first, second⟩ := params_step s target amount
  let inside := s.inCall [("x", target), ("amt", amount)]
  have refused : onHeap (HeapM.step up target amount) inside =
      .error (.fault f) (inside.grown h inside.env.stack.attained) := by
    have run : HeapM.step up target amount inside.heap = .error f h := ran
    simp only [onHeap, run]
    rfl
  have performed : (Routine.stepBy up).perform (.free n) inside =
      .error (.fault f) (inside.grown h inside.env.stack.attained) := by
    simp only [Routine.perform, Bind.bind, EStateM.bind, inside, first, second] at refused ⊢
    rw [refused]
  refine ⟨inside.env.stack.attained,
    (run_call [target, amount] offered (takes_stepBy up) rfl ready).trans ?_⟩
  exact (always_of_error performed).trans (by rw [left_grown])

/-! ### One number -/

/-- The call puts an integer in the place of the target, and changes nothing else that is there. -/
def Puts (s : Host) (n : Nat) (key : String) (target amount : Handle) (y : Integer) : Prop :=
  ∃ w t, call (.free n) key [target, amount] s = .ok w t ∧ t.heap.cell target = .number y ∧
    s.heap.Confined (· = target) t.heap

/-- The call ends with a fault of range, and nothing changes. -/
def OutOfRange (s : Host) (n : Nat) (key : String) (target amount : Handle) : Prop :=
  ∃ f t, call (.free n) key [target, amount] s = .error (.fault f) t ∧
    f.kind = .rangeError ∧ s.Still t ∧ t.heap.cell target = s.heap.cell target

/-- The call puts the number in the place of the target if that is an integer, and is out of range
if it is none. -/
def Steps (s : Host) (n : Nat) (key : String) (target amount : Handle) (i : Int) : Prop :=
  (∀ y : Integer, y.toInt = i → s.Puts n key target amount y) ∧
  ((∀ y : Integer, y.toInt ≠ i) → s.OutOfRange n key target amount)

/-- A call that is out of range puts nothing. -/
theorem OutOfRange.not_puts {y : Integer} (refused : s.OutOfRange n key target amount) :
    ¬ s.Puts n key target amount y := by
  rintro ⟨w, t, called, -⟩
  obtain ⟨f, t', failed, -⟩ := refused
  cases failed.symm.trans called

/-- **A call steps** a number where the result is an integer. -/
theorem puts_of_stepped {y : Integer} (offered : s.Offers key (.stepBy up)) (ready : s.Ready 1)
    (held : s.heap.cell target = .number x) (given : s.heap.data amount = .leaf (.integer a b))
    (step : HeapM.stepped up x a = .ok y) : s.Puts (n + 1) key target amount y := by
  have made := Heap.made_of_number held
  have ran : HeapM.step up target amount s.heap = .ok () (s.heap.renumber target y) :=
    HeapM.stepTo_of_ok held given step
  obtain ⟨k, called⟩ := call_of_step (n := n) offered ready ran
  have within := Heap.confined_renumber s.heap target y
  have last := Heap.extends_push (s.heap.renumber target y) ⟨.leaf .null, true⟩
  refine ⟨_, _, called, ?_, within.trans last.confined⟩
  show ((s.heap.renumber target y).push _).cell target = _
  rw [last.cell target (within.size_le.trans_lt' made), Heap.cell_renumber_self made]

/-- **A call is refused** where it is none. -/
theorem outOfRange_of_stepped (offered : s.Offers key (.stepBy up)) (ready : s.Ready 1)
    (held : s.heap.cell target = .number x) (given : s.heap.data amount = .leaf (.integer a b))
    (step : HeapM.stepped up x a = .error .integerOverflow) :
    s.OutOfRange (n + 1) key target amount := by
  have ran : HeapM.step up target amount s.heap = .error .integerOverflow s.heap :=
    HeapM.stepTo_of_error held given step
  obtain ⟨k, called⟩ := call_of_refused (n := n) offered ready ran
  exact ⟨_, _, called, rfl, ⟨s.heap, k, .refl _, rfl⟩, rfl⟩

/-- One of the two, for amounts that can be given the sign of the step. -/
theorem steps_of_signed (offered : s.Offers key (.stepBy up)) (ready : s.Ready 1)
    (held : s.heap.cell target = .number x) (given : s.heap.data amount = .leaf (.integer a b))
    (signed : up = true ∨ a.toInt ≠ Integer.least) :
    s.Steps (n + 1) key target amount (x.toInt + HeapM.stepSign up * a.toInt) := by
  constructor
  · intro y sum
    exact puts_of_stepped offered ready held given (HeapM.stepped_eq_ok_iff.mpr ⟨sum, signed⟩)
  · intro none
    rcases HeapM.stepped_cases up x a with ⟨y, step⟩ | step
    · exact absurd (HeapM.stepped_eq_ok_iff.mp step).1 (none y)
    · exact outOfRange_of_stepped offered ready held given step

/-- The least integer has no negative, so that a step down by it ends before the number is looked
at. -/
theorem outOfRange_of_least (offered : s.Offers key (.stepBy false)) (ready : s.Ready 1)
    (held : s.heap.cell target = .number x) (given : s.heap.data amount = .leaf (.integer a b))
    (least : a.toInt = Integer.least) : s.OutOfRange (n + 1) key target amount := by
  rcases HeapM.stepped_cases false x a with ⟨y, step⟩ | step
  · obtain ⟨-, signed⟩ := HeapM.stepped_eq_ok_iff.mp step
    exact absurd least (signed.resolve_left (by decide))
  · exact outOfRange_of_stepped offered ready held given step

theorem stepBy_mem (up : Bool) : Routine.stepBy up ∈ Routine.all := by cases up <;> decide +kernel

/-- The two routines stay where they were installed, under their marked names always and under the
plain ones unless shadowed. -/
theorem kept_steps {settings : Settings}
    (run : WatchedRun Fence.aroundTable.watch (start settings) s) :
    s.Offers (marked "Inc") (.stepBy true) ∧ s.Offers (marked "Dec") (.stepBy false) ∧
      (s.Unshadowed (.overload "Inc" 2) → s.Offers "Inc" (.stepBy true)) ∧
      (s.Unshadowed (.overload "Dec" 2) → s.Offers "Dec" (.stepBy false)) :=
  ⟨kept_offers_marked run (stepBy_mem true) rfl, kept_offers_marked run (stepBy_mem false) rfl,
    fun clear => kept_offers run (stepBy_mem true) (by decide) (.inr clear),
    fun clear => kept_offers run (stepBy_mem false) (by decide) (.inr clear)⟩

/-- **Steps are exact, but for one amount.** A step up leaves the sum, if it is an integer, and is
otherwise out of range and leaves the number as it was; and so does a step down with the difference,
for every amount but the least integer. A step down by the least integer is always out of range. A
host that has kept its library offers both routines. -/
theorem step_exact (ready : s.Ready 1) (held : s.heap.cell target = .number x)
    (given : s.heap.data amount = .leaf (.integer a b)) (n : Nat) :
    (∀ key, s.Offers key (.stepBy true) → s.Steps (n + 1) key target amount (x.toInt + a.toInt)) ∧
    (∀ key, s.Offers key (.stepBy false) →
      (a.toInt ≠ Integer.least → s.Steps (n + 1) key target amount (x.toInt - a.toInt)) ∧
      (a.toInt = Integer.least → s.OutOfRange (n + 1) key target amount)) ∧
    ∀ settings, WatchedRun Fence.aroundTable.watch (start settings) s →
      s.Offers (marked "Inc") (.stepBy true) ∧ s.Offers (marked "Dec") (.stepBy false) ∧
      (s.Unshadowed (.overload "Inc" 2) → s.Offers "Inc" (.stepBy true)) ∧
      (s.Unshadowed (.overload "Dec" 2) → s.Offers "Dec" (.stepBy false)) := by
  refine ⟨?_, ?_, fun settings run => kept_steps run⟩
  · intro key offered
    have steps := steps_of_signed (n := n) offered ready held given (.inl rfl)
    rwa [HeapM.stepSign, if_pos rfl, Int.one_mul] at steps
  · intro key offered
    constructor
    · intro other
      have steps := steps_of_signed (n := n) offered ready held given (.inr other)
      rwa [HeapM.stepSign, if_neg (by decide), Int.neg_one_mul, ← Int.sub_eq_add_neg] at steps
    · exact outOfRange_of_least offered ready held given

/-- A host at work, with an array of two integers. -/
theorem exists_pair (i j : Integer) (other : i ≠ j) :
    let s := (start .default).withIntegers 1 [i, j]
    s.Ready 1 ∧ s.Offers (marked "Inc") (.stepBy true) ∧ s.Offers (marked "Dec") (.stepBy false) ∧
      ∃ array q v w, s.heap.data array = .array q ∧ q.items = [v, w] ∧ s.heap.cell v = .number i ∧
      s.heap.cell w = .number j ∧
        v ≠ w := by
  intro s
  obtain ⟨run, ready, -, array, q, held, -, cells⟩ :=
    exists_numbers .refl (start_ready .default (k := 1) (by decide)) 1 [i, j]
  obtain ⟨v, rest, first, more, items⟩ := List.forall₂_cons_right_iff.mp cells
  obtain ⟨w, rest', second, none, rfl⟩ := List.forall₂_cons_right_iff.mp more
  obtain rfl := List.forall₂_nil_right_iff.mp none
  obtain ⟨inc, dec, -⟩ := kept_steps run
  refine ⟨ready, inc, dec, array, q, v, w, by rw [Heap.data, held], items, first, second, ?_⟩
  rintro rfl
  exact other (Cell.number_inj.mp (first.symm.trans second))

/-- The greatest integer is stepped up by one, which is out of range, and down by one. -/
theorem step_exact_greatest :
    let s := (start .default).withIntegers 1 [9223372036854775807, 1]
    ∃ target amount, s.heap.cell target = .number 9223372036854775807 ∧
      s.heap.cell amount = .number 1 ∧ s.OutOfRange 9 (marked "Inc") target amount ∧
      s.Puts 9 (marked "Dec") target amount 9223372036854775806 := by
  intro s
  obtain ⟨ready, inc, dec, -, -, target, amount, -, -, held, given, -⟩ :=
    exists_pair 9223372036854775807 1 (by decide)
  obtain ⟨up, down, -⟩ := step_exact ready held (Heap.data_of_number given) 8
  refine ⟨target, amount, held, given, (up _ inc).2 ?_,
    ((down _ dec).1 (by decide)).1 _ (by decide)⟩
  intro y
  have high := Integer.toInt_le_greatest y
  rw [Integer.greatest] at high
  have sum : (9223372036854775807 : Integer).toInt + (1 : Integer).toInt = 9223372036854775808 := by
    decide
  omega

/-- A step down by the least integer is refused where the difference is an integer. -/
theorem step_inexact :
    let s := (start .default).withIntegers 1 [-1, -9223372036854775808]
    ∃ target amount, s.heap.cell target = .number (-1) ∧
      s.heap.cell amount = .number (-9223372036854775808) ∧ (9223372036854775807 : Integer).toInt =
        (-1 : Integer).toInt - (-9223372036854775808 : Integer).toInt ∧
      s.OutOfRange 9 (marked "Dec") target amount ∧
      ¬ s.Puts 9 (marked "Dec") target amount 9223372036854775807 := by
  intro s
  obtain ⟨ready, -, dec, -, -, target, amount, -, -, held, given, -⟩ :=
    exists_pair (-1) (-9223372036854775808) (by decide)
  have refused : s.OutOfRange 9 (marked "Dec") target amount :=
    outOfRange_of_least dec ready held (Heap.data_of_number given) (by decide)
  exact ⟨target, amount, held, given, by decide, refused, refused.not_puts⟩

/-! ### The elements of an array -/

/-- A call that succeeds has stepped the elements of the array. -/
theorem steppedAll_of_call {w : Handle} {t : Host} (offered : s.Offers key (.stepBy up))
    (ready : s.Ready 1) (held : s.heap.data array = .array q) (distinct : q.items.Nodup)
    (numbers : ∀ v ∈ q.items, ∃ x, s.heap.cell v = .number x)
    (given : s.heap.data amount = .leaf (.integer a b))
    (called : call (.free (n + 1)) key [array, amount] s = .ok w t) :
    s.heap.Confined (· ∈ q.items) t.heap ∧
      HeapM.SteppedAll up amount a.toInt q.items s.heap t.heap := by
  cases ran : HeapM.step up array amount s.heap with
  | error f h =>
    obtain ⟨k, failed⟩ := call_of_refused (n := n) offered ready ran
    cases failed.symm.trans called
  | ok _ h =>
    obtain ⟨k, stepped⟩ := call_of_step (n := n) offered ready ran
    obtain ⟨-, rfl⟩ := EStateM.Result.ok.inj (stepped.symm.trans called)
    obtain ⟨m, elements⟩ := HeapM.step_array up amount held
    obtain ⟨within, all⟩ :=
      HeapM.steppedAll_of_forM distinct numbers given (elements.symm.trans ran)
    have last := Heap.extends_push h ⟨.leaf .null, true⟩
    exact ⟨within.trans last.confined, all.extends last⟩

/-- **A call steps all elements** of an array where each sum is an integer. -/
theorem call_of_sumsFit (offered : s.Offers key (.stepBy up)) (ready : s.Ready 1)
    (held : s.heap.data array = .array q) (distinct : q.items.Nodup)
    (numbers : ∀ v ∈ q.items, ∃ x, s.heap.cell v = .number x)
    (given : s.heap.data amount = .leaf (.integer a b))
    (signed : up = true ∨ a.toInt ≠ Integer.least)
    (fit : HeapM.SumsFit up amount a.toInt q.items s.heap) :
    ∃ w t, call (.free (n + 1)) key [array, amount] s = .ok w t := by
  obtain ⟨m, elements⟩ := HeapM.step_array up amount held
  obtain ⟨h, ran⟩ := HeapM.forM_of_sumsFit (n := m) distinct numbers given signed fit
  obtain ⟨k, stepped⟩ := call_of_step (n := n) offered ready (elements.trans ran)
  exact ⟨_, _, stepped⟩

/-- **An array is stepped by the amount at each turn.** If the call succeeds, nothing changes but
the elements; those up to the amount, if it is one of them, have been stepped by what it was, and
those behind it by what it has become. So every element has been stepped by what the amount was at
the call just if no element stands behind the amount, or if the amount is zero. The call succeeds
where all the sums are integers and the amount can be given its sign. -/
theorem array_stepped (ready : s.Ready 1) (offered : s.Offers key (.stepBy up))
    (held : s.heap.data array = .array q) (distinct : q.items.Nodup)
    (numbers : ∀ v ∈ q.items, ∃ x, s.heap.cell v = .number x)
    (given : s.heap.data amount = .leaf (.integer a b)) (n : Nat) :
    (∀ w t, call (.free (n + 1)) key [array, amount] s = .ok w t →
      s.heap.Confined (· ∈ q.items) t.heap ∧
      (∀ before v after x, q.items = before ++ v :: after → s.heap.cell v = .number x →
        ∃ y, t.heap.cell v = .number y ∧
        y.toInt = x.toInt + HeapM.stepSign up * HeapM.amountAfter up amount a.toInt before) ∧
      ((∀ v ∈ q.items, ∀ x, s.heap.cell v = .number x →
          ∃ y, t.heap.cell v = .number y ∧ y.toInt = x.toInt + HeapM.stepSign up * a.toInt) ↔
        amount ∉ q.items.dropLast ∨ a.toInt = 0)) ∧
    (up = true ∨ a.toInt ≠ Integer.least → HeapM.SumsFit up amount a.toInt q.items s.heap →
      ∃ w t, call (.free (n + 1)) key [array, amount] s = .ok w t) := by
  constructor
  · intro w t called
    obtain ⟨within, all⟩ := steppedAll_of_call offered ready held distinct numbers given called
    exact ⟨within, all, all.by_one_amount_iff numbers⟩
  · exact call_of_sumsFit offered ready held distinct numbers given

section Pair

variable {v u : Handle} {z : Integer} {i : Int}

theorem numbers_pair (items : q.items = [v, u]) (first : h.cell v = .number x)
    (second : h.cell u = .number z) : ∀ w ∈ q.items, ∃ x, h.cell w = .number x := by
  intro w mem
  rw [items] at mem
  rcases List.mem_pair.mp mem with rfl | rfl
  · exact ⟨x, first⟩
  · exact ⟨z, second⟩

/-- For two elements these are two sums; in the second one the amount may have been stepped. -/
theorem sumsFit_pair (first : h.cell v = .number x) (second : h.cell u = .number z)
    (sum : ∃ y : Integer, y.toInt = x.toInt + HeapM.stepSign up * i)
    (sum' : ∃ y : Integer,
      y.toInt = z.toInt + HeapM.stepSign up * HeapM.amountAfter up amount i [v]) :
    HeapM.SumsFit up amount i [v, u] h := by
  intro before w after x' split cell
  cases before with
  | nil =>
    obtain ⟨rfl, -⟩ := List.cons.inj split
    obtain rfl := Cell.number_inj.mp (first.symm.trans cell)
    simpa [HeapM.amountAfter] using sum
  | cons v' before =>
    obtain ⟨rfl, rest⟩ := List.cons.inj split
    obtain ⟨rfl, rfl, -⟩ : before = [] ∧ u = w ∧ after = [] := by
      cases before with
      | nil => simpa using rest
      | cons _ _ => simp at rest
    obtain rfl := Cell.number_inj.mp (second.symm.trans cell)
    exact sum'

end Pair

/-- Two integers in an array are stepped up by the second of them. -/
theorem array_stepped_last :
    let s := (start .default).withIntegers 1 [1, 2]
    ∃ array q v u w t, s.heap.data array = .array q ∧ q.items = [v, u] ∧ s.heap.cell v = .number 1 ∧
      s.heap.cell u = .number 2 ∧ call (.free 9) (marked "Inc") [array, u] s = .ok w t ∧
      t.heap.cell v = .number 3 ∧ t.heap.cell u = .number 4 := by
  intro s
  obtain ⟨ready, inc, -, array, q, v, u, held, items, first, second, other⟩ :=
    exists_pair 1 2 (by decide)
  have distinct : q.items.Nodup := by simp [items, other]
  have last : u ∉ q.items.dropLast := by simp [items, other.symm]
  obtain ⟨exact, succeeds⟩ :=
    array_stepped ready inc held distinct (numbers_pair items first second)
      (Heap.data_of_number second) 8
  obtain ⟨w, t, called⟩ := succeeds (.inl rfl) (by
    rw [items]
    refine sumsFit_pair first second ⟨3, by decide⟩ ⟨4, ?_⟩
    rw [HeapM.amountAfter, if_neg (by simp [other.symm])]
    decide)
  have grown := (exact w t called).2.2.mpr (.inl last)
  obtain ⟨y, after, sum⟩ := grown v (by simp [items]) 1 first
  obtain ⟨y', after', sum'⟩ := grown u (by simp [items]) 2 second
  obtain rfl : y = 3 := Int64.toInt_inj.mp (sum.trans (by decide))
  obtain rfl : y' = 4 := Int64.toInt_inj.mp (sum'.trans (by decide))
  exact ⟨array, q, v, u, w, t, held, items, first, second, called, after, after'⟩

/-- The same two are stepped up by the first of them: the second grows by what the first has
become. -/
theorem array_stepped_twice :
    let s := (start .default).withIntegers 1 [1, 2]
    ∃ array q v u w t, s.heap.data array = .array q ∧ q.items = [v, u] ∧ v ≠ u ∧
      s.heap.cell v = .number 1 ∧ s.heap.cell u = .number 2 ∧
      call (.free 9) (marked "Inc") [array, v] s = .ok w t ∧ t.heap.cell v = .number 2 ∧
      t.heap.cell u = .number 4 := by
  intro s
  obtain ⟨ready, inc, -, array, q, v, u, held, items, first, second, other⟩ :=
    exists_pair 1 2 (by decide)
  have distinct : q.items.Nodup := by simp [items, other]
  have numbers := numbers_pair items first second
  have given := Heap.data_of_number first
  obtain ⟨w, t, called⟩ :=
    call_of_sumsFit (n := 8) inc ready held distinct numbers given (.inl rfl) (by
    rw [items]
    refine sumsFit_pair first second ⟨2, by decide⟩ ⟨4, ?_⟩
    rw [HeapM.amountAfter, if_pos (by simp)]
    decide)
  obtain ⟨-, all⟩ := steppedAll_of_call inc ready held distinct numbers given called
  obtain ⟨y, after, sum⟩ := all [] v [u] 1 items first
  obtain ⟨y', after', sum'⟩ := all [v] u [] 2 items second
  rw [HeapM.amountAfter, if_neg (by simp)] at sum
  rw [HeapM.amountAfter, if_pos (by simp)] at sum'
  obtain rfl : y = 2 := Int64.toInt_inj.mp (sum.trans (by decide))
  obtain rfl : y' = 4 := Int64.toInt_inj.mp (sum'.trans (by decide))
  exact ⟨array, q, v, u, w, t, held, items, other, first, second, called, after, after'⟩

end Host

end ScriptHost
