import Mathlib
import ScriptHost.Proofs.Sorting

/-!
# Searching

A search in a sorted array narrows down where a value stands (`Narrowed`): all elements below come
before the value, and the value comes before all elements above. Every round halves what is left in
between. If a round hits an element that is equivalent to the value, its index is the answer, and
otherwise nothing is left in the end, and the answer is the index at which the value would stand.

The indices of an array can reach up to the greatest integer, and the index at which a value would
stand lies one past it then.

By a predicate that decides nothing, the search ends as well: `searchTo` is allowed as many rounds
as it can take, so that it is the same as a loop without a limit (`searchTo_eq_round`), and it asks
two questions in every round.
-/

set_option autoImplicit false

namespace ScriptHost

open HostM Course

/-! ## Indices -/

/-- A position is an index if it is an integer. -/
theorem indexOf_of_le {i : Int} (low : Integer.least ≤ i) (high : i ≤ Integer.greatest) :
    ∃ n, indexOf i = .ok n ∧ n.toInt = i := by
  refine ⟨Int64.ofInt i, ?_, Integer.toInt_ofInt_of_mem low high⟩
  simp only [indexOf, Integer.ofInt?, low, high, and_self, if_true]

/-- Past the greatest integer there is no index. -/
theorem indexOf_of_gt {i : Int} (past : Integer.greatest < i) :
    indexOf i = .error (.indexNotInteger i) := by
  have none : Integer.ofInt? i = none := by
    rw [Integer.ofInt?, if_neg]
    omega
  simp only [indexOf, none]

/-- An index in an array leads to its element. -/
theorem Sequence.get_of_offset {ρ : Type} {q : Sequence ρ} {i : Integer} {j : Nat} {v : ρ}
    (index : i.toInt = q.start.toInt + j) (here : q.items[j]? = some v) : q.get i = .ok v := by
  have inside : j < q.items.length := (List.getElem?_eq_some_iff.mp here).1
  have offset : q.offset i = j := by
    rw [Sequence.offset, index]
    omega
  have bounds : 0 ≤ q.offset i ∧ q.offset i < q.length := by
    rw [offset, Sequence.length]
    omega
  have full : q.length ≠ 0 := by
    rw [Sequence.length]
    omega
  have resolved : q.resolve i = .ok ⟨(q.offset i).toNat, Sequence.toNat_offset_lt bounds⟩ := by
    rw [Sequence.resolve, dif_neg full, dif_pos bounds]
  have position : (q.offset i).toNat = j := by
    rw [offset]
    rfl
  rw [Sequence.get, resolved]
  show Except.ok (q.items.get _) = _
  simp only [position]
  exact congrArg Except.ok (List.getElem?_eq_some_iff.mp here).2

/-! ## Narrowing down -/

/-- Where a value stands in a list has been narrowed down to the places from `low` to `high`. -/
structure Narrowed (before : Handle → Handle → Bool) (elem : Handle) (vs : List Handle)
    (low high : Nat) : Prop where
  le : low ≤ high
  inside : high ≤ vs.length
  below : ∀ i v, vs[i]? = some v → i < low → before v elem = true
  above : ∀ i v, vs[i]? = some v → high ≤ i → before elem v = true

/-- An equivalent element stands at a place of a list. -/
def Matches (before : Handle → Handle → Bool) (elem : Handle) (vs : List Handle) (i : Nat) : Prop :=
  ∃ v, vs[i]? = some v ∧ equivalent before elem v = true

theorem Matches.inside {before : Handle → Handle → Bool} {elem : Handle} {vs : List Handle}
    {i : Nat} (here : Matches before elem vs i) : i < vs.length := by
  obtain ⟨v, found, -⟩ := here
  exact (List.getElem?_eq_some_iff.mp found).1

namespace Narrowed

variable {before : Handle → Handle → Bool} {elem v : Handle} {vs : List Handle} {low high mid : Nat}

/-- At first nothing is ruled out. -/
theorem entire (before : Handle → Handle → Bool) (elem : Handle) (vs : List Handle) :
    Narrowed before elem vs 0 vs.length where
  le := Nat.zero_le _
  inside := Nat.le_refl _
  below _ _ _ less := by omega
  above i v here past := by
    have inside : i < vs.length := (List.getElem?_eq_some_iff.mp here).1
    omega

/-- In a sorted list, what stands later does not come before what stands earlier. -/
theorem not_before_of_sorted {i j : Nat} {w : Handle}
    (sorted : vs.Pairwise fun a b => before b a = false) (first : vs[i]? = some v)
    (second : vs[j]? = some w) (less : i < j) : before w v = false := by
  obtain ⟨insideI, rfl⟩ := List.getElem?_eq_some_iff.mp first
  obtain ⟨insideJ, rfl⟩ := List.getElem?_eq_some_iff.mp second
  exact List.pairwise_iff_getElem.mp sorted i j insideI insideJ less

/-- The value stands above an element that comes before it. -/
theorem raise (narrowed : Narrowed before elem vs low high) (order : OrderOn before (elem :: vs))
    (sorted : vs.Pairwise fun a b => before b a = false) (here : vs[mid]? = some v)
    (less : mid < high) (comes : before v elem = true) :
    Narrowed before elem vs (mid + 1) high where
  le := less
  inside := narrowed.inside
  below i w there lower := by
    by_cases same : i = mid
    · obtain rfl : w = v := by simpa [same, here] using there.symm
      exact comes
    · have inOrder : before v w = false := not_before_of_sorted sorted there here (by omega)
      by_contra other
      have back : before w elem = false := by simpa using other
      have contrary := order.connected elem (by simp) w (by simp [List.mem_of_getElem? there]) v
        (by simp [List.mem_of_getElem? here]) back inOrder
      simp [comes] at contrary
  above := narrowed.above

/-- The value stands below an element that it comes before. -/
theorem lower (narrowed : Narrowed before elem vs low high) (order : OrderOn before (elem :: vs))
    (sorted : vs.Pairwise fun a b => before b a = false) (here : vs[mid]? = some v)
    (after : low ≤ mid) (comes : before elem v = true) : Narrowed before elem vs low mid where
  le := after
  inside := Nat.le_of_lt (List.getElem?_eq_some_iff.mp here).1
  below := narrowed.below
  above i w there higher := by
    by_cases same : i = mid
    · obtain rfl : w = v := by simpa [same, here] using there.symm
      exact comes
    · have inOrder : before w v = false := not_before_of_sorted sorted here there (by omega)
      by_contra other
      have back : before elem w = false := by simpa using other
      have contrary := order.connected v (by simp [List.mem_of_getElem? here]) w
        (by simp [List.mem_of_getElem? there]) elem (by simp) inOrder back
      simp [comes] at contrary

/-- There is one place for a value at most. -/
theorem unique {i j : Nat} (order : OrderOn before (elem :: vs))
    (first : Narrowed before elem vs i i) (second : Narrowed before elem vs j j) : i = j := by
  have notLess : ∀ {a b : Nat}, Narrowed before elem vs a a →
      Narrowed before elem vs b b → ¬ a < b := by
    intro a b low high less
    have inside : a < vs.length := by
      have := high.inside
      omega
    have here : vs[a]? = some vs[a] := List.getElem?_eq_getElem inside
    have mem : vs[a] ∈ elem :: vs := by simp
    have contrary := order.asymm _ mem elem (by simp) (high.below a _ here less)
    simp [low.above a _ here (Nat.le_refl a)] at contrary
  have := notLess first second
  have := notLess second first
  omega

/-- Where a value would stand there is no equivalent element. -/
theorem not_matches {i j : Nat} (narrowed : Narrowed before elem vs j j) :
    ¬ Matches before elem vs i := by
  rintro ⟨v, here, same⟩
  obtain less | past := Nat.lt_or_ge i j
  · simp [equivalent, narrowed.below i v here less] at same
  · simp [equivalent, narrowed.above i v here past] at same

end Narrowed

/-! ## Rounds -/

section Rounds

variable {run : Runner} {array elem test : Handle}

/-- One round of a search: the value is compared with the element in the middle, and searched for on
one side of it. -/
def searchRound (run : Runner) (array elem test : Handle) (next : Int → Int → HostM Integer)
    (low high : Int) : HostM Integer := do
  if high < low then of (indexOf (high + 1))
  else
    let mid := low + (high - low) / 2
    let item ← onHeap (HeapM.elementAt array (← of (indexOf mid)))
    if ← holds run test item elem then next (mid + 1) high
    else if ← holds run test elem item then next low (mid - 1)
    else of (indexOf mid)

/-- A search is one round, and then a search at one level less. -/
theorem searchTo_succ (n : Nat) (low high : Int) :
    searchTo run array elem test (n + 1) low high = searchRound run array elem test
      (searchTo run array elem test n) low high :=
  rfl

/-- A round leads to either side of the middle and nowhere else. -/
theorem searchRound_congr {next next' : Int → Int → HostM Integer} {low high : Int}
    (upper : low ≤ high →
      next (low + (high - low) / 2 + 1) high = next' (low + (high - low) / 2 + 1) high)
    (lower : low ≤ high →
      next low (low + (high - low) / 2 - 1) = next' low (low + (high - low) / 2 - 1)) :
    searchRound run array elem test next low high =
      searchRound run array elem test next' low high := by
  unfold searchRound
  by_cases empty : high < low
  · simp only [empty, if_true]
  · simp only [empty, if_false, upper (by omega), lower (by omega)]

/-- A round more than can be needed makes no difference. -/
theorem searchTo_stable {n : Nat} {low high : Int} (enough : high - low < n) :
    searchTo run array elem test (n + 1) low high = searchTo run array elem test n low high := by
  induction n generalizing low high with
  | zero =>
    have empty : high < low := by omega
    simp only [searchTo, empty, if_true]
  | succ n ih =>
    rw [searchTo_succ, searchTo_succ n]
    exact searchRound_congr (fun _ => ih (by omega)) (fun _ => ih (by omega))

/-- **The search is a loop without a limit.** -/
theorem searchTo_eq_round {n : Nat} {low high : Int} (enough : high - low < n) :
    searchTo run array elem test n low high = searchRound run array elem test
      (searchTo run array elem test n) low high := by
  rw [← searchTo_succ, searchTo_stable enough]

/-- **The search asks two questions a round**, and a round halves what is left. -/
theorem asks_searchTo (n : Nat) {k : Nat} {low high : Int} (small : (high - low + 1).toNat < 2 ^ k)
    (s : Host) : Asks (holds run test) (2 * k) (searchTo run array elem test n low high) s := by
  induction n generalizing k low high s with
  | zero => exact (Asks.of _).mono (by omega)
  | succ n ih =>
    rw [searchTo_succ, searchRound]
    split
    · exact (Asks.of _).mono (by omega)
    next some =>
      obtain ⟨j, rfl⟩ : ∃ j, k = j + 1 := Nat.exists_eq_succ_of_ne_zero fun none => by
        simp [none] at small; omega
      have halves : (high - low + 1).toNat < 2 ^ j * 2 := by rwa [← Nat.pow_succ]
      have count : 2 * (j + 1) = 0 + (0 + (1 + (1 + 2 * j))) := by omega
      rw [count]
      refine (Asks.of _).bind fun index t _ => ?_
      refine (Asks.ask _).bind fun item u _ => (Asks.question item elem).bind fun first x _ => ?_
      cases first with
      | true => exact (ih (k := j) (by omega) x).mono (by omega)
      | false =>
        refine (Asks.question elem item).bind fun second y _ => ?_
        cases second with
        | true => exact ih (k := j) (by omega) y
        | false => exact (Asks.of _).mono (by omega)

theorem onHeap_bounds {q : Sequence Handle} {s : Host} (held : s.heap.data array = .array q) :
    onHeap (HeapM.bounds array) s = .ok (q.start, q.finish) s := by
  rw [HeapM.bounds, onHeap_ask]
  simp only [held, of]

/-- A search starts with all indices of the array. -/
theorem findSorted_eq {q : Sequence Handle} {s : Host} (held : s.heap.data array = .array q) :
    findSorted run array elem test s =
      searchTo run array elem test q.length q.start.toInt (q.start.toInt + q.length - 1) s := by
  have length : onHeap (HeapM.length array) s = .ok q.length s := by
    rw [HeapM.length, onHeap_ask]
    simp only [held, of]
  simp only [findSorted, Bind.bind, EStateM.bind, onHeap_bounds held, length]

/-- A search from the front goes through the elements, from the first index on. -/
theorem find_eq {q : Sequence Handle} {same : Handle} {s : Host}
    (held : s.heap.data array = .array q) :
    find run array elem same s = findFrom (holds run same · elem) q.start.toInt q.items s := by
  simp only [find, Bind.bind, EStateM.bind, onHeap_bounds held, onHeap_elements held]

/-- **A binary search asks twice a round**, and has as many rounds as the length has bits. -/
theorem asks_findSorted {q : Sequence Handle} {s : Host} (held : s.heap.data array = .array q) :
    Asks (holds run test) (2 * Nat.size q.items.length) (findSorted run array elem test) s := by
  have small : (q.start.toInt + q.length - 1 - q.start.toInt + 1).toNat <
      2 ^ Nat.size q.items.length := by
    have size := Nat.lt_size_self q.items.length
    rw [Sequence.length]
    omega
  exact (asks_searchTo q.length small s).congr (findSorted_eq held)

end Rounds

/-! ## Searching where a predicate decides -/

section Decided

variable {run : Runner} {array elem test : Handle} {q : Sequence Handle}
  {before : Handle → Handle → Bool} {s : Host}

/-- What a round does with the element in the middle. -/
theorem run_searchRound {next : Int → Int → HostM Integer} {low high mid : Int} {index : Integer}
    {item : Handle} (some : low ≤ high) (middle : low + (high - low) / 2 = mid)
    (indexed : indexOf mid = .ok index)
    (read : onHeap (HeapM.elementAt array index) s = .ok item s) :
    searchRound run array elem test next low high s = (do
      if ← holds run test item elem then next (mid + 1) high
      else if ← holds run test elem item then next low (mid - 1)
      else of (indexOf mid)) s := by
  rw [searchRound, if_neg (by omega)]
  simp only [middle, indexed]
  simp only [Bind.bind, EStateM.bind, of, read]

/-- Between two places of an array there is an element in the middle, which can be read. -/
theorem exists_middle {low high : Nat} (held : s.heap.data array = .array q)
    (fits : q.start.toInt + q.items.length - 1 ≤ Integer.greatest) (less : low < high)
    (inside : high ≤ q.items.length) :
    ∃ (mid : Nat) (v : Handle) (index : Integer), low ≤ mid ∧ mid < high ∧
      q.start.toInt + low + (q.start.toInt + high - 1 - (q.start.toInt + low)) / 2 =
        q.start.toInt + mid ∧
      q.items[mid]? = some v ∧ indexOf (q.start.toInt + mid) = .ok index ∧
      onHeap (HeapM.elementAt array index) s = .ok v s := by
  have least := Integer.least_le_toInt q.start
  obtain ⟨mid, half⟩ : ∃ mid, mid = low + (high - 1 - low) / 2 := ⟨_, rfl⟩
  have here : q.items[mid]? = some (q.items.get ⟨mid, by omega⟩) :=
    List.getElem?_eq_getElem (by omega)
  obtain ⟨index, indexed, toInt⟩ := indexOf_of_le (i := q.start.toInt + mid) (by omega) (by omega)
  refine ⟨mid, _, index, by omega, by omega, by omega, here, indexed, ?_⟩
  rw [HeapM.elementAt, onHeap_ask]
  simp only [held, Sequence.get_of_offset toInt here, of]

/-- **The search ends where the value stands**, or at an equivalent element. -/
theorem searchTo_decided {n low high : Nat}
    (decides : Decides (holds run test) (elem :: q.items) before s)
    (order : OrderOn before (elem :: q.items))
    (sorted : q.items.Pairwise fun a b => before b a = false) (held : s.heap.data array = .array q)
    (fits : q.start.toInt + q.items.length - 1 ≤ Integer.greatest)
    (narrowed : Narrowed before elem q.items low high) (enough : high - low ≤ n) :
    ∃ (j : Nat) (t : Host),
      searchTo run array elem test n (q.start.toInt + low) (q.start.toInt + high - 1) s =
        of (indexOf (q.start.toInt + j)) t ∧ s.Still t ∧
        (Matches before elem q.items j ∨ Narrowed before elem q.items j j) := by
  induction n generalizing low high s with
  | zero =>
    obtain rfl : low = high := Nat.le_antisymm narrowed.le (by omega)
    exact ⟨low, s, by rw [searchTo, Int.sub_add_cancel], .refl s, .inr narrowed⟩
  | succ n ih =>
    rw [searchTo_succ]
    obtain rfl | less := Nat.eq_or_lt_of_le narrowed.le
    · refine ⟨low, s, ?_, .refl s, .inr narrowed⟩
      rw [searchRound, if_pos (by omega), Int.sub_add_cancel]
    obtain ⟨mid, v, index, above, below, middle, here, indexed, read⟩ :=
      exists_middle held fits less narrowed.inside
    have memV : v ∈ elem :: q.items := List.mem_cons_of_mem _ (List.mem_of_getElem? here)
    have memE : elem ∈ elem :: q.items := List.mem_cons_self
    have kept : ∀ t, s.Still t → t.heap.data array = .array q := fun t still =>
      (Heap.data_congr (still.extends.cell array (Heap.made_of_array held))).trans held
    obtain ⟨t, first, still⟩ := decides s .refl v memV elem memE
    have decides := decides.answered ⟨v, memV, elem, memE, _, first⟩
    rw [run_searchRound (by omega) middle indexed read]
    cases comes : before v elem with
    | true =>
      -- the value stands above the middle
      obtain ⟨j, u, ran, further, place⟩ :=
        ih decides (kept t still) (narrowed.raise order sorted here below comes) (by omega)
      refine ⟨j, u, ?_, still.trans further, place⟩
      rw [← ran, Nat.cast_succ, ← Int.add_assoc]
      simp only [Bind.bind, EStateM.bind, first, comes, if_true]
    | false =>
      obtain ⟨u, second, further⟩ := decides t .refl elem memE v memV
      have decides := decides.answered ⟨elem, memE, v, memV, _, second⟩
      have still := still.trans further
      cases comesBack : before elem v with
      | true =>
        obtain ⟨j, x, ran, last, place⟩ :=
          ih decides (kept u still) (narrowed.lower order sorted here above comesBack) (by omega)
        refine ⟨j, x, ?_, still.trans last, place⟩
        rw [← ran]
        simp only [Bind.bind, EStateM.bind, first, second, comes, comesBack, Bool.false_eq_true,
          if_false, if_true]
      | false =>
        refine ⟨mid, u, ?_, still, .inl ⟨v, here, equivalent_iff.mpr ⟨comesBack, comes⟩⟩⟩
        simp only [Bind.bind, EStateM.bind, first, second, comes, comesBack,
          Bool.false_eq_true, if_false]

/-- The search from the first element on ends at the first that is alike, or past the last one. -/
theorem findFrom_decided {same : Handle} {alike : Handle → Handle → Bool} {among vs : List Handle}
    {i : Int} (decides : Decides (holds run same) among alike s) (sub : vs ⊆ among)
    (mem : elem ∈ among) :
    ∃ t, findFrom (holds run same · elem) i vs s = of (indexOf (i + vs.findIdx (alike · elem))) t ∧
      s.Still t := by
  induction vs generalizing i s with
  | nil => exact ⟨s, by simp [findFrom], .refl s⟩
  | cons v vs ih =>
    obtain ⟨memV, sub⟩ := List.cons_subset.mp sub
    obtain ⟨t, asked, still⟩ := decides s .refl v memV elem mem
    rw [findFrom, List.findIdx_cons]
    cases same : alike v elem with
    | true =>
      refine ⟨t, ?_, still⟩
      simp only [Bind.bind, EStateM.bind, asked, same, if_true, cond_true]
      simp
    | false =>
      obtain ⟨u, ran, further⟩ :=
        ih (i := i + 1) (decides.answered ⟨v, memV, elem, mem, _, asked⟩) sub
      refine ⟨u, ?_, still.trans further⟩
      have shift : i + ((vs.findIdx (alike · elem) + 1 : Nat) : Int) =
          i + 1 + vs.findIdx (alike · elem) := by omega
      rw [cond_false, shift, ← ran]
      simp only [Bind.bind, EStateM.bind, asked, same, Bool.false_eq_true, if_false]

end Decided

theorem Data.equal_of_numbers {d e : Data Handle} {i j : Int} (first : d.number? = some i)
    (second : e.number? = some j) :
    (if d.kind = .null ∨ e.kind = .null then Except.ok (decide (d.kind = .null ∧ e.kind = .null))
      else (d.compare e).map (· == .eq)) = .ok (decide (i = j)) := by
  obtain ⟨-, -, -, kindD⟩ := asInteger_of_number first
  obtain ⟨-, -, -, kindE⟩ := asInteger_of_number second
  have some : ¬ (d.kind = .null ∨ e.kind = .null) := by
    rcases kindD with kindD | kindD <;> rcases kindE with kindE | kindE <;> simp [kindD, kindE]
  obtain ⟨m, n, order, rfl, rfl⟩ := compare_of_numbers first second
  rw [if_neg some, order, ← integerOrder_eq]
  rfl

/-! ## Answers -/

namespace Host

/-- The call returns an index, and nothing has changed. -/
def Returns (s : Host) (levels : Nat) (key : String) (args : List Handle) (i : Int) : Prop :=
  ∃ w t n, call (.free levels) key args s = .ok w t ∧ s.Still t ∧
    t.heap.data w = .leaf (.integer n none) ∧ n.toInt = i

/-- The call fails with a range error, and nothing has changed. -/
def Overruns (s : Host) (levels : Nat) (key : String) (args : List Handle) : Prop :=
  ∃ f t, call (.free levels) key args s = .error (.fault f) t ∧ s.Still t ∧ f.kind = .rangeError

/-- The call answers an index: it returns it if it is an integer, and fails if it lies past the
greatest one. -/
structure Indexes (s : Host) (levels : Nat) (key : String) (args : List Handle) (i : Int) :
    Prop where
  returns : i ≤ Integer.greatest → s.Returns levels key args i
  overruns : Integer.greatest < i → s.Overruns levels key args

variable {s : Host} {key : String} {array elem test : Handle} {q : Sequence Handle} {n : Nat}
  {args : List Handle} {i j : Int}

/-- A call returns one number. -/
theorem Returns.unique (first : s.Returns n key args i) (second : s.Returns n key args j) :
    i = j := by
  obtain ⟨w, t, m, called, -, data, rfl⟩ := first
  obtain ⟨w', t', m', called', -, data', rfl⟩ := second
  obtain ⟨rfl, rfl⟩ := EStateM.Result.ok.inj (called.symm.trans called')
  have same := data.symm.trans data'
  simp only [Data.leaf.injEq, Leaf.integer.injEq] at same
  rw [same.1]

/-- A call that returns does not overrun. -/
theorem Returns.not_overruns (returns : s.Returns n key args i) : ¬ s.Overruns n key args := by
  rintro ⟨f, t, failed, -⟩
  obtain ⟨w, u, m, called, -⟩ := returns
  cases failed.symm.trans called

/-- A routine that answers an index answers it to its caller. -/
theorem indexes_of_perform {r : Routine} {names : List String} {inner : HostM Integer} {t : Host}
    (offered : s.Offers key r) (takes : r.Takes names) (arity : args.length = names.length)
    (ready : s.Ready 1)
    (performed : r.perform (.free n) (s.inCall (names.zip args)) =
      (do Routine.answerInteger (← inner)) (s.inCall (names.zip args)))
    (ran : inner (s.inCall (names.zip args)) = of (indexOf i) t)
    (still : (s.inCall (names.zip args)).Still t) (low : Integer.least ≤ i) :
    s.Indexes (n + 1) key args i := by
  have called := run_call (n := n) args offered takes arity ready
  obtain ⟨h, k, extended, rfl⟩ := still
  refine ⟨fun high => ?_, fun past => ?_⟩
  · obtain ⟨m, indexed, toInt⟩ := indexOf_of_le low high
    have answered : r.perform (.free n) (s.inCall (names.zip args)) =
        .ok ⟨h.size⟩ ((s.inCall (names.zip args)).grown
          (h.push ⟨.leaf (.integer m none), false⟩) k) := by
      rw [performed]
      simp only [Bind.bind, EStateM.bind, ran, indexed, of]
      rfl
    refine ⟨⟨h.size⟩, _, m, called.trans (always_left answered), ⟨_, k, ?_, rfl⟩, ?_, toInt⟩
    · exact Heap.Extends.trans extended (Heap.extends_push h _)
    · show (h.push _).data _ = _
      rw [Heap.data, Heap.cell_push_new]
  · have failed : r.perform (.free n) (s.inCall (names.zip args)) =
        .error (.fault (.indexNotInteger i)) ((s.inCall (names.zip args)).grown h k) := by
      rw [performed]
      simp only [Bind.bind, EStateM.bind, ran, indexOf_of_gt past, of]
    refine ⟨.indexNotInteger i, s.grown h k, ?_, ⟨h, k, extended, rfl⟩, rfl⟩
    rw [called, always_of_error failed, left_grown]

section Searches

variable {before : Handle → Handle → Bool}

/-- What a search is called with. -/
theorem params_search (s : Host) (array elem test : Handle) :
    let t := s.inCall [("A", array), ("elem", elem), ("compareF", test)]
    param "A" t = .ok array t ∧ param "elem" t = .ok elem t ∧ param "compareF" t = .ok test t :=
  ⟨param_inCall (by decide) rfl, param_inCall (by decide) rfl, param_inCall (by decide) rfl⟩

/-- **A search in a sorted array.** -/
theorem findSorted_indexes (offered : s.Offers key .findSorted)
    (held : s.heap.data array = .array q)
    (fits : q.start.toInt + q.items.length - 1 ≤ Integer.greatest)
    (order : OrderOn before (elem :: q.items))
    (sorted : q.items.Pairwise fun a b => before b a = false)
    (decides : Decides (holds (.free n) test) (elem :: q.items) before
      (s.inCall [("A", array), ("elem", elem), ("compareF", test)])) :
    ∃ j : Nat, s.Indexes (n + 1) key [array, elem, test] (q.start.toInt + j) ∧
      (Matches before elem q.items j ∨ Narrowed before elem q.items j j) := by
  obtain ⟨j, u, ran, still, place⟩ :=
    searchTo_decided (n := q.length) decides order sorted held fits
    (Narrowed.entire before elem q.items) (Nat.le_of_eq (Nat.sub_zero _))
  rw [Nat.cast_zero, Int.add_zero] at ran
  have there : (s.inCall [("A", array), ("elem", elem), ("compareF", test)]).heap.data array =
      .array q := held
  have found := (findSorted_eq there).trans ran
  obtain ⟨first, second, third⟩ := params_search s array elem test
  have low := Integer.least_le_toInt q.start
  have takes : Routine.findSorted.Takes ["A", "elem", "compareF"] := ⟨rfl, by decide⟩
  refine ⟨j, indexes_of_perform offered takes rfl (decides.ready List.mem_cons_self) ?_ found still
    (by omega), place⟩
  simp only [Routine.perform, Bind.bind, EStateM.bind, List.zip_cons_cons, List.zip_nil_right,
    first, second, third]

/-- **A search from the first element on.** -/
theorem find_indexes {same : Handle} {alike : Handle → Handle → Bool} (offered : s.Offers key .find)
    (held : s.heap.data array = .array q)
    (decides : Decides (holds (.free n) same) (elem :: q.items) alike
      (s.inCall [("A", array), ("elem", elem), ("compareF", same)])) :
    s.Indexes (n + 1) key [array, elem, same] (q.start.toInt + q.items.findIdx (alike · elem)) := by
  obtain ⟨u, ran, still⟩ := findFrom_decided (i := q.start.toInt) decides
    (List.subset_cons_self elem q.items) List.mem_cons_self
  have there : (s.inCall [("A", array), ("elem", elem), ("compareF", same)]).heap.data array =
      .array q := held
  have found := (find_eq there).trans ran
  obtain ⟨first, second, third⟩ := params_search s array elem same
  have low := Integer.least_le_toInt q.start
  have takes : Routine.find.Takes ["A", "elem", "compareF"] := ⟨rfl, by decide⟩
  refine indexes_of_perform offered takes rfl (decides.ready List.mem_cons_self) ?_ found
    still (by omega)
  simp only [Routine.perform, Bind.bind, EStateM.bind, List.zip_cons_cons, List.zip_nil_right,
    first, second, third]

/-- A search from the first element on by the equivalence finds an index of the array where there is
an equivalent element. -/
theorem find_inside_iff {same : Handle} (offered : s.Offers key .find)
    (held : s.heap.data array = .array q)
    (fits : q.start.toInt + q.items.length - 1 ≤ Integer.greatest)
    (decides : Decides (holds (.free n) same) (elem :: q.items) (equivalent before)
      (s.inCall [("A", array), ("elem", elem), ("compareF", same)])) :
    (∃ i, q.start.toInt ≤ i ∧ i ≤ q.start.toInt + q.items.length - 1 ∧
      s.Returns (n + 1) key [array, elem, same] i) ↔ ∃ j, Matches before elem q.items j := by
  have answers := find_indexes offered held decides
  constructor
  · rintro ⟨i, -, inside, returned⟩
    have first : i = q.start.toInt + q.items.findIdx (equivalent before · elem) := by
      by_cases high : q.start.toInt + q.items.findIdx (equivalent before · elem) ≤ Integer.greatest
      · exact returned.unique (answers.returns high)
      · exact absurd (answers.overruns (by omega)) returned.not_overruns
    obtain ⟨v, mem, alike⟩ := List.findIdx_lt_length.mp
      (by omega : q.items.findIdx (equivalent before · elem) < q.items.length)
    obtain ⟨j, here⟩ := List.mem_iff_getElem?.mp mem
    exact ⟨j, v, here, equivalent_iff.mpr (equivalent_iff.mp alike).symm⟩
  · rintro ⟨j, v, here, alike⟩
    have inside : q.items.findIdx (equivalent before · elem) < q.items.length :=
      List.findIdx_lt_length.mpr ⟨v, List.mem_of_getElem? here,
        equivalent_iff.mpr (equivalent_iff.mp alike).symm⟩
    exact ⟨_, by omega, by omega, answers.returns (by omega)⟩

/-- **A search ends by any predicate**, unless that does not. -/
theorem findSorted_ends (offered : s.Offers key .findSorted) (held : s.heap.data array = .array q)
    (elem test : Handle) (n : Nat) :
    ∃ asked halt u, Tested (holds (.free n) test) (s.inCall [("A", array), ("elem", elem),
      ("compareF", test)]) asked halt u ∧ asked.length ≤ 2 * Nat.size q.items.length ∧
      (GaveUp (call (.free (n + 1)) key [array, elem, test] s) → halt = some .exhausted) := by
  have takes : Routine.findSorted.Takes ["A", "elem", "compareF"] := ⟨rfl, by decide⟩
  by_cases ready : s.Ready 1
  · have there : (s.inCall [("A", array), ("elem", elem), ("compareF", test)]).heap.data array =
        .array q := held
    obtain ⟨asked, halt, tested, most, -, ends⟩ := asks_findSorted there
    refine ⟨asked, halt, _, tested, most, ?_⟩
    rintro ⟨t, gaveUp⟩
    rw [run_call [array, elem, test] offered takes rfl ready] at gaveUp
    obtain ⟨first, second, third⟩ := params_search s array elem test
    cases ran : findSorted (.free n) array elem test (s.inCall [("A", array), ("elem", elem),
      ("compareF", test)]) with
    | ok i u =>
      have answered : ∃ w x, Routine.perform (.free n) .findSorted
          (s.inCall [("A", array), ("elem", elem), ("compareF", test)]) = .ok w x := by
        simp only [Routine.perform, Bind.bind, EStateM.bind, first, second, third, ran]
        exact ⟨_, _, rfl⟩
      obtain ⟨w, x, answered⟩ := answered
      cases (always_of_ok answered).symm.trans gaveUp
    | error e u =>
      have failed : Routine.perform (.free n) .findSorted (s.inCall [("A", array), ("elem", elem),
          ("compareF", test)]) = .error e u := by
        simp only [Routine.perform, Bind.bind, EStateM.bind, first, second, third, ran]
      obtain ⟨rfl, -⟩ := EStateM.Result.error.inj ((always_of_error failed).symm.trans gaveUp)
      exact ends ⟨u, ran⟩
  · obtain ⟨f, refused⟩ :=
      call_of_not_ready (.free (n + 1)) [array, elem, test] offered takes rfl ready
    refine ⟨[], none, _, .nothing _, Nat.zero_le _, ?_⟩
    rintro ⟨t, gaveUp⟩
    cases refused.symm.trans gaveUp

end Searches

/-- **Searching a sorted array.** In an array whose last index is an integer, and which is sorted by
a strict weak order that the predicate decides on its elements and the value, a search returns the
index of an element that is equivalent to the value, if there is one. If there is none, there is one
place where the value would stand, and its index is returned; only if that is one past the greatest
integer, the search fails with a range error. A search from the first element on by the equivalence
of that order finds an index of the array in the same cases. By any predicate, a search asks twice
for every halving of the array, and it gives up only if a question does: it is the loop that narrows
down the indices, for which the rounds that are allowed always suffice. -/
theorem search_finds (offered : s.Offers key .findSorted) (held : s.heap.data array = .array q)
    (fits : q.start.toInt + q.items.length - 1 ≤ Integer.greatest) (elem test : Handle) (n : Nat) :
    (∀ before : Handle → Handle → Bool,
      IsStrictWeakOrder {v // v ∈ elem :: q.items} (fun a b => before a b = true) →
      (q.items.Pairwise fun a b => before b a = false) →
      Decides (holds (.free n) test) (elem :: q.items) before
        (s.inCall [("A", array), ("elem", elem), ("compareF", test)]) →
      ((∃ j, Matches before elem q.items j) →
        ∃ j, Matches before elem q.items j ∧
        s.Returns (n + 1) key [array, elem, test] (q.start.toInt + j)) ∧
      ((¬ ∃ j, Matches before elem q.items j) →
        ∃ j, Narrowed before elem q.items j j ∧ (∀ i, Narrowed before elem q.items i i → i = j) ∧
          (q.start.toInt + j ≤ Integer.greatest →
            s.Returns (n + 1) key [array, elem, test] (q.start.toInt + j)) ∧
          (s.Overruns (n + 1) key [array, elem, test] ↔ q.start.toInt + j = Integer.greatest + 1)) ∧
      ∀ (findKey : String) (same : Handle) (m : Nat), s.Offers findKey .find →
        Decides (holds (.free m) same) (elem :: q.items) (equivalent before)
          (s.inCall [("A", array), ("elem", elem), ("compareF", same)]) →
        ((∃ j, Matches before elem q.items j ∧
          s.Returns (n + 1) key [array, elem, test] (q.start.toInt + j)) ↔
          ∃ i, q.start.toInt ≤ i ∧ i ≤ q.start.toInt + q.items.length - 1 ∧
          s.Returns (m + 1) findKey [array, elem, same] i)) ∧
    (∃ asked halt u, Tested (holds (.free n) test) (s.inCall [("A", array), ("elem", elem),
      ("compareF", test)]) asked halt u ∧ asked.length ≤ 2 * Nat.size q.items.length ∧
      (GaveUp (call (.free (n + 1)) key [array, elem, test] s) → halt = some .exhausted)) ∧
    ∀ (run : Runner) (rounds : Nat) (low high : Int), high - low < rounds →
      searchTo run array elem test rounds low high = searchRound run array elem test
        (searchTo run array elem test rounds) low high := by
  refine ⟨fun before weak sorted decides => ?_, findSorted_ends offered held elem test n,
    fun run rounds low high => searchTo_eq_round⟩
  have order := orderOn_of_strictWeak weak
  obtain ⟨j, answers, place⟩ := findSorted_indexes offered held fits order sorted decides
  have found : (∃ j, Matches before elem q.items j) →
      ∃ j, Matches before elem q.items j ∧
      s.Returns (n + 1) key [array, elem, test] (q.start.toInt + j) := by
    rintro ⟨i, here⟩
    obtain matched | narrowed := place
    · have inside := matched.inside
      exact ⟨j, matched, answers.returns (by omega)⟩
    · exact absurd here narrowed.not_matches
  refine ⟨found, fun missing => ?_, fun findKey same m offers decidesSame => ?_⟩
  · obtain matched | narrowed := place
    · exact absurd ⟨j, matched⟩ missing
    refine ⟨j, narrowed, fun i other => other.unique order narrowed, answers.returns,
      fun failed => ?_, fun past => ?_⟩
    · have inside := narrowed.inside
      by_contra other
      exact (answers.returns (by omega)).not_overruns failed
    · exact answers.overruns (by omega)
  · rw [find_inside_iff offers held fits decidesSame]
    constructor
    · rintro ⟨i, matched, -⟩
      exact ⟨i, matched⟩
    · exact found

theorem findSorted_mem : Routine.findSorted ∈ Routine.all := by decide +kernel

theorem find_mem : Routine.find ∈ Routine.all := by decide +kernel

section Integers

variable {among : List Handle} {bindings : List (String × Handle)}

/-- The routine that tells which value is less decides the order of integers. -/
theorem decides_less (provides : (s.heap.data test).Provides (comparator true)) (ready : s.Ready 2)
    (integers : ∀ v ∈ among, ∃ i, s.heap.data v = .leaf (.integer i none)) :
    Decides (holds (.free (n + 1)) test) among (byValue s.heap.number true)
      (s.inCall bindings) := by
  refine decides_byValue provides ready (fun v mem => ?_) (fun a memA b memB => ?_) bindings
  · obtain ⟨i, held⟩ := integers v mem
    exact made_of_integer held
  · obtain ⟨i, heldA⟩ := integers a memA
    obtain ⟨j, heldB⟩ := integers b memB
    exact Data.less_of_numbers (Heap.number_integer heldA).1 (Heap.number_integer heldB).1

/-- The routine that tells whether values are equal decides the equivalence of integers. -/
theorem decides_equal (provides : (s.heap.data test).Provides .equal) (ready : s.Ready 2)
    (integers : ∀ v ∈ among, ∃ i, s.heap.data v = .leaf (.integer i none)) :
    Decides (holds (.free (n + 1)) test) among (equivalent (byValue s.heap.number true))
      (s.inCall bindings) := by
  refine decides_routine compares_equal provides (ready.inCall bindings) (fun v mem => ?_)
    fun a memA b memB => ?_
  · obtain ⟨i, held⟩ := integers v mem
    exact made_of_integer held
  · obtain ⟨i, heldA⟩ := integers a memA
    obtain ⟨j, heldB⟩ := integers b memB
    have alike : equivalent (byValue s.heap.number true) a b =
        decide (s.heap.number a = s.heap.number b) := by
      rw [Bool.eq_iff_iff, equivalent_iff]
      simp only [byValue, if_true, decide_eq_false_iff_not, decide_eq_true_eq]
      omega
    rw [alike]
    exact Data.equal_of_numbers (Heap.number_integer heldA).1 (Heap.number_integer heldB).1

end Integers

/-- Three integers up to the greatest index: the second is found there, by both searches, and a
greater one would stand past it. -/
theorem search_finds_three :
    let s := ((start .default).withIntegers 0 [7]).withIntegers 9223372036854775805 [1, 3, 5]
    ∃ array three seven less equal q, s.heap.data array = .array q ∧
      q.items.map s.heap.number = [1, 3, 5] ∧ s.heap.number three = 3 ∧ s.heap.number seven = 7 ∧
      s.Returns 9 (marked "FindSorted") [array, three, less] (Integer.greatest - 1) ∧
      (∃ i, Integer.greatest - 2 ≤ i ∧ i ≤ Integer.greatest ∧
        s.Returns 9 (marked "Find") [array, three, equal] i) ∧
      s.Overruns 9 (marked "FindSorted") [array, seven, less] := by
  intro s
  obtain ⟨run, ready, ⟨seven, dataSeven⟩, array, q, cell, first, data⟩ :
      WatchedRun Fence.aroundTable.watch (start .default) s ∧ s.Ready 2 ∧
        (∃ v, s.heap.data v = .leaf (.integer 7 none)) ∧
      ∃ v q, s.heap.cell v = ⟨.array q, false⟩ ∧ q.start = 9223372036854775805 ∧
        List.Forall₂ (fun w i => s.heap.data w = .leaf (.integer i none)) q.items [1, 3, 5] := by
    obtain ⟨earlier, readyEarlier, -, -, q, -, -, data⟩ :=
      exists_integers .refl (start_ready .default (k := 2) (by decide)) 0 [7]
    obtain ⟨run, ready, extended, array⟩ :=
      exists_integers earlier readyEarlier 9223372036854775805 [1, 3, 5]
    obtain ⟨seven, mem, held⟩ := Data.exists_of_forall₂ data List.mem_cons_self
    exact ⟨run, ready, ⟨seven, data_integer held extended⟩, array⟩
  clear_value s
  have held : s.heap.data array = .array q := by rw [Heap.data, cell]
  obtain ⟨one, three, five, items, dataOne, dataThree, dataFive⟩ : ∃ a b c, q.items = [a, b, c] ∧
      s.heap.data a = .leaf (.integer 1 none) ∧ s.heap.data b = .leaf (.integer 3 none) ∧
      s.heap.data c = .leaf (.integer 5 none) := by
    simp only [List.forall₂_cons_right_iff, List.forall₂_nil_right_iff] at data
    obtain ⟨a, -, dataA, ⟨b, -, dataB, ⟨c, -, dataC, rfl, rfl⟩, rfl⟩, items⟩ := data
    exact ⟨a, b, c, items, dataA, dataB, dataC⟩
  have isOne : s.heap.number one = 1 := (Heap.number_integer dataOne).2
  have isThree : s.heap.number three = 3 := (Heap.number_integer dataThree).2
  have isFive : s.heap.number five = 5 := (Heap.number_integer dataFive).2
  have isSeven : s.heap.number seven = 7 := (Heap.number_integer dataSeven).2
  have lowest : q.start.toInt = Integer.greatest - 2 := by
    rw [first]
    decide
  have fits : q.start.toInt + q.items.length - 1 ≤ Integer.greatest := by
    simp only [lowest, items, List.length_cons, List.length_nil]
    omega
  have sorted : q.items.Pairwise fun a b => byValue s.heap.number true b a = false := by
    simp [items, byValue, isOne, isThree, isFive]
  have integers : ∀ elem ∈ [three, seven],
      ∀ v ∈ elem :: q.items, ∃ i, s.heap.data v = .leaf (.integer i none) := by
    simp [items, dataOne, dataThree, dataFive, dataSeven]
  have offered : s.Offers (marked "FindSorted") .findSorted :=
    kept_offers_marked run findSorted_mem rfl
  obtain ⟨less, -, provides⟩ := kept_ascending run
  obtain ⟨equal, -, equates⟩ : ∃ v, s.scope.lookup (marked "EQUAL") = .ok v ∧
      (s.heap.data v).Provides .equal :=
    kept_plain run (by decide +kernel) (by decide +kernel)
  have search := fun elem mem => (search_finds offered held fits elem less 8).1
    _ (orderOn_byValue s.heap.number true _).strictWeak
    sorted (decides_less provides ready (integers elem mem))
  refine ⟨array, three, seven, less, equal, q, held, ?_, isThree, isSeven, ?_⟩
  · simp [items, isOne, isThree, isFive]
  -- the second element is the only one that is equivalent to it
  obtain ⟨found, -, agrees⟩ := search three (by simp)
  have here : Matches (byValue s.heap.number true) three q.items 1 :=
    ⟨three, by simp [items], by simp [equivalent, byValue]⟩
  have only : ∀ j, Matches (byValue s.heap.number true) three q.items j → j = 1 := by
    rintro j ⟨v, there, alike⟩
    have inside : j < 3 := by simpa [items] using (List.getElem?_eq_some_iff.mp there).1
    interval_cases j
    · obtain rfl : one = v := by simpa [items] using there
      simp [equivalent, byValue, isOne, isThree] at alike
    · rfl
    · obtain rfl : five = v := by simpa [items] using there
      simp [equivalent, byValue, isThree, isFive] at alike
  obtain ⟨j, matched, returned⟩ := found ⟨1, here⟩
  obtain rfl := only j matched
  have offersFind : s.Offers (marked "Find") .find := kept_offers_marked run find_mem rfl
  obtain ⟨i, low, high, returnedFind⟩ :=
    (agrees _ equal 8 offersFind (decides_equal equates ready (integers three (by simp)))).mp
    ⟨1, matched, returned⟩
  -- all elements come before the other value
  obtain ⟨-, missing, -⟩ := search seven (by simp)
  have last : Narrowed (byValue s.heap.number true) seven q.items 3 3 := by
    have length : q.items.length = 3 := by simp [items]
    refine ⟨Nat.le_refl 3, Nat.le_of_eq length.symm, fun i v there _ => ?_,
      fun i v there past => ?_⟩
    · have mem := List.mem_of_getElem? there
      simp only [items, List.mem_cons, List.not_mem_nil, or_false] at mem
      rcases mem with rfl | rfl | rfl <;> simp [byValue, isOne, isThree, isFive, isSeven]
    · have inside := (List.getElem?_eq_some_iff.mp there).1
      omega
  obtain ⟨k, -, unique, -, overruns⟩ := missing (not_exists.mpr fun j => last.not_matches)
  obtain rfl := unique 3 last
  have length : (q.items.length : Int) = 3 := by simp [items]
  have index : q.start.toInt + (1 : Nat) = Integer.greatest - 1 := by omega
  rw [index] at returned
  exact ⟨returned, ⟨i, by omega, by omega, returnedFind⟩, overruns.mpr (by omega)⟩

end Host

end ScriptHost
