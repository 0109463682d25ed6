import Mathlib.Order.Defs.Unbundled
import ScriptHost.Proofs.Host.Predicates

/-!
# Sorting

Sorting by a strict weak order leaves the elements of an array in that order, and equivalent ones as
they stood. The argument has two parts. Where a predicate decides, merging two lists is
`List.merge`, and whatever is merged from sorted halves is sorted (`StableSort.merge`). And storing
the sorted elements cannot fail: they are the parts that the array has had, so that none of them
contains the array, and there are as many of them.
-/

set_option autoImplicit false

namespace ScriptHost

open HostM

/-! ## Orders on the elements of a list -/

/-- Neither of two values comes before the other. -/
def equivalent (before : Handle → Handle → Bool) (a b : Handle) : Bool := !before a b && !before b a

/-- What a strict weak order on the elements of a list amounts to for a merge. -/
structure OrderOn (before : Handle → Handle → Bool) (among : List Handle) : Prop where
  asymm : ∀ a ∈ among, ∀ b ∈ among, before a b = true → before b a = false
  connected : ∀ a ∈ among, ∀ b ∈ among, ∀ c ∈ among, before b a = false → before c b = false →
    before c a = false

/-- A list in order, with equivalent elements as they stood in another one. -/
structure StableSort (before : Handle → Handle → Bool) (vs ws : List Handle) : Prop where
  perm : ws.Perm vs
  ordered : ws.Pairwise fun a b => before b a = false
  stable : ∀ x ∈ vs, ws.filter (equivalent before x) = vs.filter (equivalent before x)

/-- An element goes first unless the other one comes before it. -/
def goesFirst (before : Handle → Handle → Bool) (a b : Handle) : Bool := !before b a

variable {before : Handle → Handle → Bool} {among vs ws as bs ls rs : List Handle}
  {a b c x : Handle}

/-- A strict weak order on the elements is one for a merge. -/
theorem orderOn_of_strictWeak
    (order : IsStrictWeakOrder {v // v ∈ among} fun a b => before a b = true) :
    OrderOn before among where
  asymm a memA b memB first := by
    by_contra second
    have loop : before a a = true :=
      order.trans ⟨a, memA⟩ ⟨b, memB⟩ ⟨a, memA⟩ first (by simpa using second)
    exact order.irrefl ⟨a, memA⟩ loop
  connected a memA b memB c memC left right := by
    by_contra reversed
    have reversed : before c a = true := by simpa using reversed
    -- `b` would be equivalent to both, but they are not equivalent
    have below : ¬ before b c = true := fun first => by
      have whole : before b a = true := order.trans ⟨b, memB⟩ ⟨c, memC⟩ ⟨a, memA⟩ first reversed
      simp [left] at whole
    have above : ¬ before a b = true := fun second => by
      have whole : before c b = true := order.trans ⟨c, memC⟩ ⟨a, memA⟩ ⟨b, memB⟩ reversed second
      simp [right] at whole
    have both := order.incomp_trans ⟨c, memC⟩ ⟨b, memB⟩ ⟨a, memA⟩ ⟨by simp [right], below⟩
      ⟨by simp [left], above⟩
    exact both.1 reversed

/-- And the other way round. -/
theorem OrderOn.strictWeak (order : OrderOn before among) :
    IsStrictWeakOrder {v // v ∈ among} fun a b => before a b = true where
  irrefl a loop := by simp [order.asymm a a.2 a a.2 loop] at loop
  trans a b c first second := by
    by_contra other
    have contrary :=
      order.connected b b.2 c c.2 a a.2 (order.asymm b b.2 c c.2 second) (by simpa using other)
    simp [contrary] at first
  incomp_trans a b c first second := by
    simp only [Bool.not_eq_true] at first second ⊢
    exact ⟨order.connected c c.2 b b.2 a a.2 second.1 first.1,
      order.connected a a.2 b b.2 c c.2 first.2 second.2⟩

theorem equivalent_iff :
    equivalent before a b = true ↔ before a b = false ∧ before b a = false := by
  simp [equivalent]

/-- Equivalent values have the same values equivalent to them. -/
theorem OrderOn.equivalent_congr (order : OrderOn before among) (memA : a ∈ among)
    (memB : b ∈ among) (memC : c ∈ among) (same : equivalent before a b = true) :
    equivalent before a c = equivalent before b c := by
  obtain ⟨ab, ba⟩ := equivalent_iff.mp same
  rw [Bool.eq_iff_iff, equivalent_iff, equivalent_iff]
  constructor
  · rintro ⟨ac, ca⟩
    exact ⟨order.connected c memC a memA b memB ac ba, order.connected b memB a memA c memC ab ca⟩
  · rintro ⟨bc, cb⟩
    exact ⟨order.connected c memC b memB a memA bc ab, order.connected a memA b memB c memC ba cb⟩

/-! ## Merging -/

/-- Merged lists that are in order are in order. -/
theorem OrderOn.pairwise_merge (order : OrderOn before among) (left : as ⊆ among)
    (right : bs ⊆ among) (firsts : as.Pairwise fun a b => before b a = false)
    (seconds : bs.Pairwise fun a b => before b a = false) :
    (as.merge bs (goesFirst before)).Pairwise fun a b => before b a = false := by
  induction as generalizing bs with
  | nil => simpa using seconds
  | cons a as ihA =>
    induction bs with
    | nil => simpa using firsts
    | cons b bs ihB =>
      obtain ⟨memA, left⟩ := List.cons_subset.mp left
      obtain ⟨memB, right⟩ := List.cons_subset.mp right
      obtain ⟨afterA, restA⟩ := List.pairwise_cons.mp firsts
      obtain ⟨afterB, restB⟩ := List.pairwise_cons.mp seconds
      rw [List.cons_merge_cons]
      cases comes : before b a with
      | true =>
        rw [if_neg (by simp [goesFirst, comes])]
        refine List.pairwise_cons.mpr ⟨fun x mem => ?_, ihB right restB⟩
        have back : before a b = false := order.asymm b memB a memA comes
        obtain mem | mem := List.mem_merge.mp mem
        · obtain rfl | mem := List.mem_cons.mp mem
          · exact back
          · exact order.connected b memB a memA x (left mem) back (afterA x mem)
        · exact afterB x mem
      | false =>
        rw [if_pos (by simp [goesFirst, comes])]
        refine List.pairwise_cons.mpr ⟨fun x mem => ?_,
          ihA left (List.cons_subset.mpr ⟨memB, right⟩) restA seconds⟩
        obtain mem | mem := List.mem_merge.mp mem
        · exact afterA x mem
        · obtain rfl | mem := List.mem_cons.mp mem
          · exact comes
          · exact order.connected a memA b memB x (right mem) comes (afterB x mem)

/-- Of equivalent elements, a merge takes those on the left first. -/
theorem OrderOn.filter_merge (order : OrderOn before among) (left : as ⊆ among) (right : bs ⊆ among)
    (mem : x ∈ among) (firsts : as.Pairwise fun a b => before b a = false) :
    (as.merge bs (goesFirst before)).filter (equivalent before x) =
      as.filter (equivalent before x) ++ bs.filter (equivalent before x) := by
  induction as generalizing bs with
  | nil => simp
  | cons a as ihA =>
    induction bs with
    | nil => simp
    | cons b bs ihB =>
      obtain ⟨memA, left'⟩ := List.cons_subset.mp left
      obtain ⟨memB, right'⟩ := List.cons_subset.mp right
      obtain ⟨afterA, restA⟩ := List.pairwise_cons.mp firsts
      rw [List.cons_merge_cons]
      cases comes : before b a with
      | true =>
        rw [if_neg (by simp [goesFirst, comes]), List.filter_cons, ihB right']
        cases inside : equivalent before x b with
        | true =>
          -- nothing on the left is equivalent to `b`, which comes before all of it
          have none : (a :: as).filter (equivalent before x) = [] := by
            rw [List.filter_eq_nil_iff]
            intro y memY same
            have alike : equivalent before b y = true :=
              (order.equivalent_congr mem memB (left memY) inside).symm.trans same
            have notBack : before y a = false := by
              obtain rfl | memY := List.mem_cons.mp memY
              · cases loop : before y y with
                | true => exact absurd (order.asymm y memA y memA loop) (by simp [loop])
                | false => rfl
              · exact afterA y memY
            have contrary :=
              order.connected a memA y (left memY) b memB notBack (equivalent_iff.mp alike).1
            simp [comes] at contrary
          simp [none, inside]
        | false => simp [List.filter_cons, inside]
      | false =>
        rw [if_pos (by simp [goesFirst, comes]), List.filter_cons, ihA left' right restA]
        cases inside : equivalent before x a with
        | true => simp [List.filter_cons, inside]
        | false => simp [List.filter_cons, inside]

namespace StableSort

/-- One element is in order. -/
theorem short (few : vs.length ≤ 1) : StableSort before vs vs where
  perm := .refl vs
  ordered := by
    cases vs with
    | nil => exact .nil
    | cons v vs =>
      have none : vs = [] := List.length_eq_zero_iff.mp (by simpa using few)
      rw [none]
      exact List.pairwise_singleton _ v
  stable _ _ := rfl

/-- A sort adds no elements. -/
theorem subset (sorted : StableSort before vs ws) (sub : vs ⊆ among) : ws ⊆ among :=
  fun _ mem => sub (sorted.perm.mem_iff.mp mem)

/-- A value need not be among those sorted for those equivalent to it to stand as they stood. -/
theorem filter_eq (sorted : StableSort before vs ws) (order : OrderOn before among)
    (sub : vs ⊆ among) (mem : x ∈ among) :
    ws.filter (equivalent before x) = vs.filter (equivalent before x) := by
  by_cases any : ∃ y ∈ vs, equivalent before x y = true
  · obtain ⟨y, memY, same⟩ := any
    have alike : ∀ l : List Handle, l ⊆ among →
        l.filter (equivalent before x) = l.filter (equivalent before y) := by
      intro l inside
      exact List.filter_congr fun z memZ => order.equivalent_congr mem (sub memY) (inside memZ) same
    rw [alike ws (sorted.subset sub), alike vs sub, sorted.stable y memY]
  · have none : ∀ z ∈ vs, ¬ equivalent before x z = true := fun z memZ same => any ⟨z, memZ, same⟩
    rw [List.filter_eq_nil_iff.mpr none,
      List.filter_eq_nil_iff.mpr fun z memZ => none z (sorted.perm.mem_iff.mp memZ)]

/-- **Sorted halves are merged** to a sorted whole. -/
theorem merge (order : OrderOn before among) (left : StableSort before as ls)
    (right : StableSort before bs rs) (subA : as ⊆ among) (subB : bs ⊆ among) :
    StableSort before (as ++ bs) (ls.merge rs (goesFirst before)) where
  perm := (List.merge_perm_append _).trans (left.perm.append right.perm)
  ordered := order.pairwise_merge (left.subset subA) (right.subset subB) left.ordered right.ordered
  stable x mem := by
    have inside : x ∈ among := by
      obtain mem | mem := List.mem_append.mp mem
      · exact subA mem
      · exact subB mem
    rw [order.filter_merge (left.subset subA) (right.subset subB) inside left.ordered,
      List.filter_append, left.filter_eq order subA inside, right.filter_eq order subB inside]

end StableSort

/-! ## Sorting where a predicate decides -/

section Decided

variable {test : Before} {s : Host}

/-- One row of a merge: what is left of the second list is gone through while it comes before. -/
theorem yields_mergeInto {rest : List Handle → HostM (List Handle)}
    (decides : Decides test among before s) (memA : a ∈ among) (sub : bs ⊆ among)
    (next : ∀ bs t, bs ⊆ among → Decides test among before t →
      (deciding test among before).Yields (rest bs) t fun ws _ =>
        ws = as.merge bs (goesFirst before)) :
    (deciding test among before).Yields (mergeInto test a as rest bs) s fun ws _ =>
      ws = (a :: as).merge bs (goesFirst before) := by
  induction bs generalizing s with
  | nil => exact .pure decides (by simp)
  | cons b bs ih =>
    obtain ⟨memB, sub⟩ := List.cons_subset.mp sub
    rw [mergeInto]
    refine (yields_test decides memB memA).bind ?_
    rintro answer t decides - rfl
    cases comes : before b a with
    | true =>
      refine (ih decides sub).bind ?_
      rintro ws u decides - rfl
      exact .pure decides (by rw [List.cons_merge_cons, if_neg (by simp [goesFirst, comes])])
    | false =>
      refine (next (b :: bs) t (List.cons_subset.mpr ⟨memB, sub⟩) decides).bind ?_
      rintro ws u decides - rfl
      exact .pure decides (by rw [List.cons_merge_cons, if_pos (by simp [goesFirst, comes])])

/-- **A merge by a predicate that decides** is the merge by its answers. -/
theorem yields_merge (decides : Decides test among before s) (subA : as ⊆ among)
    (subB : bs ⊆ among) :
    (deciding test among before).Yields (ScriptHost.merge test as bs) s fun ws _ =>
      ws = as.merge bs (goesFirst before) := by
  induction as generalizing bs s with
  | nil => exact .pure decides (by simp)
  | cons a as ih =>
    obtain ⟨memA, subA⟩ := List.cons_subset.mp subA
    exact yields_mergeInto decides memA subB fun bs t sub decides => ih decides subA sub

/-- **A list is sorted**, given enough levels of halving. -/
theorem yields_mergeSortTo {n : Nat} (decides : Decides test among before s)
    (order : OrderOn before among) (sub : vs ⊆ among) (enough : vs.length ≤ n) :
    (deciding test among before).Yields (mergeSortTo test n vs) s fun ws _ =>
      StableSort before vs ws := by
  induction n generalizing vs s with
  | zero => exact .pure decides (.short (by omega))
  | succ n ih =>
    rw [mergeSortTo]
    split
    next few => exact .pure decides (.short few)
    next many =>
      have subL : vs.take (vs.length / 2) ⊆ among := List.Subset.trans (List.take_subset _ _) sub
      have subR : vs.drop (vs.length / 2) ⊆ among := List.Subset.trans (List.drop_subset _ _) sub
      refine (ih decides subL (by rw [List.length_take]; omega)).bind fun ls t decides _ left => ?_
      refine (ih decides subR (by rw [List.length_drop]; omega)).bind fun rs u decides _ right => ?_
      refine (yields_merge decides (left.subset subL) (right.subset subR)).weaken ?_
      rintro ws x - - rfl
      have whole := StableSort.merge order left right subL subR
      rwa [List.take_append_drop] at whole

end Decided

/-! ## Sorting an array -/

/-- Elements that do not contain the array are stored in it. -/
theorem HeapM.run_setElements {h : Heap} {array : Handle} {q : Sequence Handle}
    {items : List Handle} (held : h.data array = .array q) (unlocked : h.isLocked array = false)
    (fits : q.hasRoom items.length = true) (clear : ∀ w ∈ items, ¬ h.Reaches w array) :
    setElements array items h = .ok ()
      (h.setCell array ⟨.array { q with items := items, filled := items.length }, false⟩) := by
  have checked : items.forM (rejectCycle array) h = .ok () h := by
    obtain ⟨-, run⟩ | ⟨⟨w, mem, reach⟩, -⟩ := rejectCycles_cases h array items
    · exact run
    · exact absurd reach (clear w mem)
  rw [setElements, bind_of_ok checked, bind_of_ok (writable_of_unlocked unlocked), held]
  exact store_of_ok (by simp only [Sequence.replace, fits, if_true]) unlocked

/-- What is in a heap in which one cell has been replaced and another one made. -/
theorem Heap.cell_stored {h : Heap} {v : Handle} (made : h.Made v) (c d : Cell) :
    ((h.setCell v c).push d).cell v = c ∧ ∀ w, h.Made w → w ≠ v →
      ((h.setCell v c).push d).cell w = h.cell w := by
  have size : (h.setCell v c).size = h.size := size_setCell ..
  refine ⟨?_, fun w madeW other => ?_⟩
  · rw [cell_push_old _ _ (size ▸ made), cell_setCell_self _ _ _ made]
  · rw [cell_push_old _ _ (size ▸ madeW), cell_setCell_ne _ _ other]

namespace Host

/-- The call ends with the elements of the array in another order, of which something is said, and
with nothing else changed. -/
def Sorts (s : Host) (levels : Nat) (key : String) (array test : Handle) (q : Sequence Handle)
    (sorted : List Handle → Prop) : Prop :=
  ∃ w items h attained, call (.free levels) key [array, test] s = .ok w (s.grown h attained) ∧
    h.data w = .leaf .null ∧
    h.cell array = ⟨.array { q with items := items, filled := items.length }, false⟩ ∧
    (∀ v, s.heap.Made v → v ≠ array → h.cell v = s.heap.cell v) ∧ items.Perm q.items ∧ sorted items

variable {s : Host} {key : String} {array test : Handle} {q : Sequence Handle} {n : Nat}

/-- What is said of the order may be weakened. -/
theorem Sorts.weaken {sorted sorted' : List Handle → Prop}
    (sorts : s.Sorts n key array test q sorted) (weaker : ∀ items, sorted items → sorted' items) :
    s.Sorts n key array test q sorted' := by
  obtain ⟨w, items, h, k, run, null, stored, others, perm, result⟩ := sorts
  exact ⟨w, items, h, k, run, null, stored, others, perm, weaker items result⟩

/-- The elements are taken down, sorted, and stored. -/
theorem perform_sort {run : Runner} {t u : Host} {items : List Handle} {h : Heap}
    (first : param "A" t = .ok array t) (second : param "compareF" t = .ok test t)
    (held : t.heap.data array = .array q) (ran : mergeSort (holds run test) q.items t = .ok items u)
    (stored : HeapM.setElements array items u.heap = .ok () h) :
    Routine.perform run .sort t = .ok ⟨h.size⟩ { u with heap := h.push ⟨.leaf .null, true⟩ } := by
  have kept : onHeap (HeapM.setElements array items) u = .ok () { u with heap := h } := by
    simp only [onHeap, stored]
  simp only [Routine.perform, HostM.sort, Bind.bind, EStateM.bind, first, second,
    onHeap_elements held, ran, kept]
  rfl

/-- **An array is sorted** by a predicate that decides. -/
theorem sorts_of_decides (reachable : s.Reachable) (offered : s.Offers key .sort)
    (held : s.heap.data array = .array q) (unlocked : s.heap.isLocked array = false)
    (fits : q.hasRoom q.length = true) (order : OrderOn before q.items)
    (decides : Decides (holds (.free n) test) q.items before
      (s.inCall [("A", array), ("compareF", test)]))
    (ready : q.items = [] → s.Ready 1) :
    s.Sorts (n + 1) key array test q (StableSort before q.items) := by
  have ready : s.Ready 1 := by
    cases elements : q.items with
    | nil => exact ready elements
    | cons v vs => exact decides.ready (a := v) (by simp [elements])
  have formed := reachable.wellFormed
  have made : s.heap.Made array := Heap.made_of_array held
  have parts : s.heap.parts array = q.items := by rw [Heap.parts, held, Data.parts]
  obtain ⟨items, t, ran, -, ⟨h, k, extended, rfl⟩, sorted⟩ :=
    yields_mergeSortTo decides order (List.Subset.refl _) (Nat.le_refl _)
  have extended : s.heap.Extends h := extended
  have same : h.cell array = s.heap.cell array := extended.cell array made
  have clear : ∀ w ∈ items, ¬ h.Reaches w array := by
    intro w mem reach
    have part : w ∈ s.heap.parts array := by
      rw [parts]
      exact sorted.perm.mem_iff.mp mem
    exact formed.acyclic array w part
      (formed.reaches_of_extends extended reach (formed.parts array w part))
  have room : q.hasRoom items.length = true := by
    rw [sorted.perm.length_eq]
    exact fits
  have stored := HeapM.run_setElements (h := h) ((Heap.data_congr same).trans held)
    ((Heap.isLocked_congr same).trans unlocked) room clear
  let after := h.setCell array ⟨.array { q with items := items, filled := items.length }, false⟩
  have performed : Routine.perform (.free n) .sort (s.inCall [("A", array), ("compareF", test)]) =
      .ok ⟨after.size⟩
        ((s.inCall [("A", array), ("compareF", test)]).grown (after.push ⟨.leaf .null, true⟩) k) :=
    perform_sort (param_inCall (by decide) rfl) (param_inCall (by decide) rfl) held ran stored
  have takes : Routine.sort.Takes ["A", "compareF"] := ⟨rfl, by decide⟩
  have called : call (.free (n + 1)) key [array, test] s =
      .ok ⟨after.size⟩ (s.grown (after.push ⟨.leaf .null, true⟩) k) := by
    rw [run_call [array, test] offered takes rfl ready]
    exact always_left performed
  obtain ⟨there, others⟩ := Heap.cell_stored (extended.made made)
    ⟨.array { q with items := items, filled := items.length }, false⟩ ⟨.leaf .null, true⟩
  refine ⟨⟨after.size⟩, items, _, k, called, ?_, there, fun v madeV other => ?_,
    sorted.perm, sorted⟩
  · rw [Heap.data, Heap.cell_push_new]
  · rw [others v (extended.made madeV) other, extended.cell v madeV]

end Host

/-! ## Sorting by value -/

/-- The number that an Integer or a Boolean stands for. -/
def Data.number? {ρ : Type} : Data ρ → Option Int
  | .leaf (.integer i _) => some i.toInt
  | .leaf (.boolean b) => some (if b then 1 else 0)
  | _ => none

/-- The text that a String is. -/
def Data.text? {ρ : Type} : Data ρ → Option String
  | .leaf (.string text) => some text
  | _ => none

/-- The number of a value, zero where it stands for none. -/
def Heap.number (h : Heap) (v : Handle) : Int := ((h.data v).number?).getD 0

section Values

variable {d e : Data Handle}

/-- An Integer stands for its value. -/
theorem Heap.number_integer {h : Heap} {v : Handle} {i : Integer} {bounds : Option (Bounds Integer)}
    (held : h.data v = .leaf (.integer i bounds)) :
    (h.data v).number? = some (h.number v) ∧ h.number v = i.toInt := by
  rw [Heap.number, held]
  exact ⟨rfl, rfl⟩

theorem integerOrder_lt (i j : Integer) :
    (integerOrder i j == .lt) = decide (i.toInt < j.toInt) := by
  unfold integerOrder
  by_cases less : i < j
  · simp [less, Int64.lt_iff_toInt_lt.mp less]
  · have other : ¬ i.toInt < j.toInt := fun le => less (Int64.lt_iff_toInt_lt.mpr le)
    by_cases same : i = j <;> simp [less, other, same]

theorem integerOrder_eq (i j : Integer) :
    (integerOrder i j == .eq) = decide (i.toInt = j.toInt) := by
  unfold integerOrder
  by_cases less : i < j
  · have other : i.toInt ≠ j.toInt := Int.ne_of_lt (Int64.lt_iff_toInt_lt.mp less)
    simp [less, other]
  · by_cases same : i = j
    · simp [same]
    · have other : i.toInt ≠ j.toInt := fun equal => same (Int64.toInt_inj.mp equal)
      simp [less, same, other]

/-- Texts compare as strings do. -/
theorem textOrder_lt (a b : String) : (textOrder a b == .lt) = decide (a < b) := by
  unfold textOrder
  by_cases less : a < b
  · simp [less]
  · by_cases same : a = b <;> simp [less, same]

/-- What stands for a number is compared as one. -/
theorem Data.asInteger_of_number {i : Int} (number : d.number? = some i) :
    ∃ n, d.asInteger = .ok n ∧ n.toInt = i ∧ (d.kind = .integer ∨ d.kind = .boolean) := by
  unfold Data.number? at number
  split at number
  next n bounds => exact ⟨n, rfl, Option.some.inj number, .inl rfl⟩
  next b =>
    exact ⟨booleanInteger b, rfl, by cases b <;> simpa [booleanInteger] using number, .inr rfl⟩
  next => cases number

/-- Values that stand for numbers compare as their numbers do. -/
theorem Data.compare_of_numbers {i j : Int} (first : d.number? = some i)
    (second : e.number? = some j) :
    ∃ m n, d.compare e = .ok (integerOrder m n) ∧ m.toInt = i ∧ n.toInt = j := by
  obtain ⟨m, asM, toInt, kindM⟩ := asInteger_of_number first
  obtain ⟨n, asN, toInt', kindN⟩ := asInteger_of_number second
  refine ⟨m, n, ?_, toInt, toInt'⟩
  rcases kindM with kindM | kindM <;> rcases kindN with kindN | kindN <;>
    simp [Data.compare, kindM, kindN, Kind.isScalar, asM, asN, Bind.bind, Except.bind,
      Pure.pure, Except.pure]

/-- One of them is less if its number is. -/
theorem Data.less_of_numbers {i j : Int} (first : d.number? = some i)
    (second : e.number? = some j) : (d.compare e).map (· == .lt) = .ok (decide (i < j)) := by
  obtain ⟨m, n, order, rfl, rfl⟩ := compare_of_numbers first second
  rw [order, ← integerOrder_lt]
  rfl

/-- A text is less if it comes before the other one. -/
theorem Data.less_of_texts {a b : String} (first : d.text? = some a) (second : e.text? = some b) :
    (d.compare e).map (· == .lt) = .ok (decide (a < b)) := by
  unfold Data.text? at first second
  split at first
  next =>
    split at second
    next =>
      obtain rfl := Option.some.inj first
      obtain rfl := Option.some.inj second
      rw [← textOrder_lt]
      rfl
    next => cases second
  next => cases first

end Values

namespace Host

/-- The routine to sort by, upwards or downwards. -/
def comparator (up : Bool) : Routine := if up then .lessThan else .greaterThan

/-- Both comparators look at the two contents and at nothing else. -/
theorem compares_comparator (up : Bool) :
    (comparator up).Compares fun d e => if up then (d.compare e).map (· == .lt)
      else (e.compare d).map (· == .lt) := by
  cases up with
  | true => exact compares_lessThan
  | false => exact compares_greaterThan

section ByValue

variable {κ : Type} [LT κ] [DecidableLT κ] {value : Handle → κ} {up : Bool} {s : Host}
  {key : String} {array test : Handle} {q : Sequence Handle}

/-- The order of values by what is given for each of them. -/
def byValue (value : Handle → κ) (up : Bool) (a b : Handle) : Bool :=
  if up then decide (value a < value b) else decide (value b < value a)

/-- The routine that compares values decides about those that can be compared. -/
theorem decides_byValue {among : List Handle} {n : Nat}
    (provides : (s.heap.data test).Provides (comparator up)) (ready : s.Ready 2)
    (made : ∀ v ∈ among, s.heap.Made v)
    (less : ∀ a ∈ among, ∀ b ∈ among,
      ((s.heap.data a).compare (s.heap.data b)).map (· == .lt) = .ok (decide (value a < value b)))
    (bindings : List (String × Handle)) :
    Decides (holds (.free (n + 1)) test) among (byValue value up) (s.inCall bindings) := by
  refine decides_routine (compares_comparator up) provides (ready.inCall bindings) made
    fun a memA b memB => ?_
  cases up with
  | true => exact less a memA b memB
  | false => exact less b memB a memA

variable [LE κ] [Std.IsLinearOrder κ] [Std.LawfulOrderLT κ]

/-- Values in a linear order are ordered by them, upwards and downwards. -/
theorem orderOn_byValue (value : Handle → κ) (up : Bool) (among : List Handle) :
    OrderOn (byValue value up) among where
  asymm a _ b _ less := by
    cases up with
    | true =>
      have less : value a < value b := by simpa [byValue] using less
      simpa [byValue] using Std.not_lt_of_ge (Std.le_of_lt less)
    | false =>
      have less : value b < value a := by simpa [byValue] using less
      simpa [byValue] using Std.not_lt_of_ge (Std.le_of_lt less)
  connected a _ b _ c _ first second := by
    cases up with
    | true =>
      have first : value a ≤ value b := by simpa [byValue, Std.not_lt] using first
      have second : value b ≤ value c := by simpa [byValue, Std.not_lt] using second
      simpa [byValue, Std.not_lt] using Std.le_trans first second
    | false =>
      have first : value b ≤ value a := by simpa [byValue, Std.not_lt] using first
      have second : value c ≤ value b := by simpa [byValue, Std.not_lt] using second
      simpa [byValue, Std.not_lt] using Std.le_trans second first

/-- **An array is sorted by value** by the routine that compares values. -/
theorem sorts_byValue {n : Nat} (reachable : s.Reachable) (offered : s.Offers key .sort)
    (held : s.heap.data array = .array q) (unlocked : s.heap.isLocked array = false)
    (fits : q.hasRoom q.length = true) (provides : (s.heap.data test).Provides (comparator up))
    (ready : s.Ready 2)
    (less : ∀ a ∈ q.items, ∀ b ∈ q.items,
      ((s.heap.data a).compare (s.heap.data b)).map (· == .lt) = .ok (decide (value a < value b))) :
    s.Sorts (n + 2) key array test q fun items =>
      items.Pairwise fun a b => if up then value a ≤ value b else value b ≤ value a := by
  have parts : ∀ v ∈ q.items, s.heap.Made v := by
    intro v mem
    refine reachable.wellFormed.parts array v ?_
    rw [Heap.parts, held]
    exact mem
  have decides :=
    decides_byValue (n := n) provides ready parts less [("A", array), ("compareF", test)]
  have sorts := sorts_of_decides reachable offered held unlocked fits (orderOn_byValue value up _)
    decides fun _ => ready.mono (by omega)
  refine sorts.weaken fun items sorted => sorted.ordered.imp fun {a b} after => ?_
  cases up with
  | true => simpa [byValue, Std.not_lt] using after
  | false => simpa [byValue, Std.not_lt] using after

end ByValue

variable {s : Host} {key : String} {array test : Handle} {q : Sequence Handle}

theorem sort_mem : Routine.sort ∈ Routine.all := by decide +kernel

/-- The comparator for upwards stays where it was installed. -/
theorem kept_ascending {settings : Settings}
    (run : WatchedRun Fence.aroundTable.watch (start settings) s) :
    ∃ v, s.scope.lookup (marked "SORT_ASCENDING") = .ok v ∧
      (s.heap.data v).Provides (comparator true) :=
  kept_plain run (by decide +kernel) (by decide +kernel)

/-- So does the one for downwards. -/
theorem kept_descending {settings : Settings}
    (run : WatchedRun Fence.aroundTable.watch (start settings) s) :
    ∃ v, s.scope.lookup (marked "SORT_DESCENDING") = .ok v ∧
      (s.heap.data v).Provides (comparator false) :=
  kept_plain run (by decide +kernel) (by decide +kernel)

/-- **Sorting is stable sorting.** An array that is not locked, and whose last index is an integer,
is sorted by any predicate that decides a strict weak order on its elements: the call succeeds,
nothing changes but the order of the elements, none comes after one that it is before, and
equivalent ones stand as they stood. With the routines that compare two values, integers and
Booleans are sorted by number, and texts by character, upwards or downwards. A host that has kept
its library offers the sort, and the two routines under their other names. -/
theorem sort_sorts (reachable : s.Reachable) (offered : s.Offers key .sort)
    (held : s.heap.data array = .array q) (unlocked : s.heap.isLocked array = false)
    (fits : q.start.toInt + q.items.length - 1 ≤ Integer.greatest) (n : Nat) :
    (∀ before : Handle → Handle → Bool,
      IsStrictWeakOrder {v // v ∈ q.items} (fun a b => before a b = true) →
      Decides (holds (.free n) test) q.items before (s.inCall [("A", array), ("compareF", test)]) →
      (q.items = [] → s.Ready 1) →
      s.Sorts (n + 1) key array test q (StableSort before q.items)) ∧
    (∀ up : Bool, (s.heap.data test).Provides (comparator up) → s.Ready 2 →
      (∀ number : Handle → Int, (∀ v ∈ q.items, (s.heap.data v).number? = some (number v)) →
        s.Sorts (n + 2) key array test q fun items =>
          items.Pairwise fun a b => if up then number a ≤ number b else number b ≤ number a) ∧
      ∀ text : Handle → String, (∀ v ∈ q.items, (s.heap.data v).text? = some (text v)) →
        s.Sorts (n + 2) key array test q fun items =>
          items.Pairwise fun a b => if up then text a ≤ text b else text b ≤ text a) ∧
    ∀ settings, WatchedRun Fence.aroundTable.watch (start settings) s →
      s.Offers (marked "Sort") .sort ∧ (s.Unshadowed (.overload "Sort" 2) → s.Offers "Sort" .sort) ∧
      (∃ v, s.scope.lookup (marked "SORT_ASCENDING") = .ok v ∧
        (s.heap.data v).Provides (comparator true)) ∧
      ∃ v, s.scope.lookup (marked "SORT_DESCENDING") = .ok v ∧
      (s.heap.data v).Provides (comparator false) := by
  have fits : q.hasRoom q.length = true := by simpa [Sequence.hasRoom, Sequence.length] using fits
  refine ⟨fun before order decides ready => ?_,
    fun up provides ready => ⟨fun number numbers => ?_, fun text texts => ?_⟩,
    fun settings run => ?_⟩
  · exact sorts_of_decides reachable offered held unlocked fits
      (orderOn_of_strictWeak order) decides ready
  · exact sorts_byValue reachable offered held unlocked fits provides ready fun a memA b memB =>
      Data.less_of_numbers (numbers a memA) (numbers b memB)
  · exact sorts_byValue reachable offered held unlocked fits provides ready fun a memA b memB =>
      Data.less_of_texts (texts a memA) (texts b memB)
  · exact ⟨kept_offers_marked run sort_mem rfl,
      fun clear => kept_offers run sort_mem (by decide) (.inr clear), kept_ascending run,
      kept_descending run⟩

/-- Three integers, sorted downwards. -/
theorem sort_sorts_three :
    let s := (start .default).withIntegers 1 [2, 3, 1]
    ∃ array test q w h attained items, s.heap.data array = .array q ∧
      s.scope.lookup (marked "SORT_DESCENDING") = .ok test ∧
      call (.free 9) (marked "Sort") [array, test] s = .ok w (s.grown h attained) ∧
      h.cell array = ⟨.array { q with items := items, filled := items.length }, false⟩ ∧
      items.map (fun v => (s.heap.data v).number?) = [some 3, some 2, some 1] := by
  intro s
  obtain ⟨run, ready, -, array, q, cell, first, data⟩ :=
    exists_integers .refl (start_ready .default (k := 2) (by decide)) 1 [2, 3, 1]
  have held : s.heap.data array = .array q := by rw [Heap.data, cell]
  have unlocked : s.heap.isLocked array = false := by rw [Heap.isLocked, cell]
  have counted : q.items.map s.heap.number = [2, 3, 1].map Int64.toInt := by
    refine Data.map_eq_of_forall₂ ?_ data
    exact fun v i held => (Heap.number_integer held).2
  have numbers : ∀ v ∈ q.items, (s.heap.data v).number? = some (s.heap.number v) := by
    intro v mem
    obtain ⟨i, -, held⟩ := Data.exists_of_forall₂ data.flip mem
    exact (Heap.number_integer held).1
  have fits : q.start.toInt + q.items.length - 1 ≤ Integer.greatest := by
    rw [first, data.length_eq]
    decide
  have offered : s.Offers (marked "Sort") .sort := kept_offers_marked run sort_mem rfl
  obtain ⟨test, found, provides⟩ := kept_descending run
  obtain ⟨-, byValue, -⟩ := sort_sorts (kept_reachable run) offered held unlocked fits 7
  obtain ⟨w, items, h, attained, called, -, stored, -, perm, sorted⟩ :=
    (byValue false provides ready).1 _ numbers
  refine ⟨array, test, q, w, h, attained, items, held, found, called, stored, ?_⟩
  -- a list that is in order is the only one with its elements that is
  have downwards : (items.map s.heap.number).Pairwise (· ≥ ·) := by
    simp only [Bool.false_eq_true, if_false] at sorted
    exact List.pairwise_map.mpr sorted
  have same : (items.map s.heap.number).Perm [3, 2, 1] := by
    have known := perm.map s.heap.number
    rw [counted] at known
    exact known.trans (by decide)
  have order : items.map s.heap.number = [3, 2, 1] :=
    same.eq_of_pairwise (fun a b _ _ ab ba => Int.le_antisymm ba ab) downwards (by decide)
  have known : items.map (fun v => (s.heap.data v).number?) = items.map (some ∘ s.heap.number) :=
    List.map_congr_left fun v mem => numbers v (perm.mem_iff.mp mem)
  rw [known, ← List.map_map, order]
  rfl

end Host

end ScriptHost
