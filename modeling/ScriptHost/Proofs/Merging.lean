import Mathlib
import ScriptHost.Proofs.Atomicity
import ScriptHost.Proofs.Sorting

/-!
# Sorting by any predicate

Whatever a predicate answers, and whatever it does, sorting loses no element and makes none twice,
asks only so often, and stores nothing before it has been asked for the last time.

A merge goes in rounds. `Merging` is a merge under way; a round compares the first elements that are
left on both sides, and takes one of them, whatever the answer is (`Merging.round_takes`). So the
elements stay the same ones, and there are no more rounds than elements. Sorting is made of merges,
and what is stored in the end is a permutation of what was taken down at the beginning.
-/

set_option autoImplicit false

namespace ScriptHost

open HostM Course

/-! ## Rounds -/

/-- A merge under way: what is left of either list, and what has been taken from them. -/
structure Merging where
  left : List Handle
  right : List Handle
  taken : List Handle

namespace Merging

/-- Nothing is left on one side, so that the rest follows as it is. -/
def Finished (m : Merging) : Prop := m.left = [] ∨ m.right = []

/-- What has been taken, followed by what is left. -/
def whole (m : Merging) : List Handle := m.taken ++ (m.left ++ m.right)

/-- One round: the first element on the right is taken if it comes before the first on the left, and
otherwise the latter. -/
def round (before : Before) : Merging → HostM Merging
  | ⟨a :: as, b :: bs, taken⟩ => do
    if ← before b a then return ⟨a :: as, bs, taken ++ [b]⟩ else return ⟨as, b :: bs, taken ++ [a]⟩
  | m => return m

/-- So many rounds. -/
def rounds (before : Before) : Nat → Merging → HostM Merging
  | 0, m => return m
  | n + 1, m => do rounds before n (← m.round before)

/-- One element has been taken from the front of one side. -/
inductive Takes : Merging → Merging → Prop where
  | left (a : Handle) (as bs taken : List Handle) :
    Takes ⟨a :: as, bs, taken⟩ ⟨as, bs, taken ++ [a]⟩
  | right (b : Handle) (as bs taken : List Handle) :
    Takes ⟨as, b :: bs, taken⟩ ⟨as, bs, taken ++ [b]⟩

variable {before : Before} {m m' : Merging} {s t : Host} {n : Nat}

/-- **Every round takes one element.** -/
theorem round_takes (unfinished : ¬ m.Finished) (ran : m.round before s = .ok m' t) :
    m.Takes m' := by
  obtain ⟨as, bs, taken⟩ := m
  cases as with
  | nil => exact absurd (.inl rfl) unfinished
  | cons a as =>
    cases bs with
    | nil => exact absurd (.inr rfl) unfinished
    | cons b bs =>
      simp only [round, Bind.bind, EStateM.bind] at ran
      split at ran
      next answer u asked =>
        cases answer with
        | true =>
          cases ran
          exact .right b (a :: as) bs taken
        | false =>
          cases ran
          exact .left a as (b :: bs) taken
      next => cases ran

theorem round_finished (finished : m.Finished) : m.round before = pure m := by
  obtain ⟨as, bs, taken⟩ := m
  obtain none | none := finished
  · cases none
    rfl
  · cases none
    cases as <;> rfl

theorem rounds_finished (finished : m.Finished) : rounds before n m = pure m := by
  induction n with
  | zero => rfl
  | succ n ih => rw [rounds, round_finished finished, pure_bind, ih]

theorem Takes.perm (takes : m.Takes m') : m'.whole.Perm m.whole := by
  cases takes with
  | left a as bs taken => simp [whole]
  | right b as bs taken =>
    simp only [whole, List.append_assoc, List.singleton_append]
    exact List.Perm.append_left taken List.perm_middle.symm

/-- Rounds keep the elements. -/
theorem perm_rounds (before : Before) (n : Nat) (m : Merging) (s : Host) :
    (Course.anywhere Host).Leads (rounds before n m) s fun m' _ => m'.whole.Perm m.whole := by
  induction n generalizing m s with
  | zero => exact .pure trivial (.refl _)
  | succ n ih =>
    have one : (Course.anywhere Host).Leads (m.round before) s fun m' _ =>
        m'.whole.Perm m.whole := by
      by_cases finished : m.Finished
      · rw [round_finished finished]
        exact .pure trivial (.refl _)
      · cases ran : m.round before s with
        | ok m' t => exact .of_ok ran trivial trivial (round_takes finished ran).perm
        | error e t => exact .of_error ran trivial trivial
    exact one.bind fun m' t _ _ first => (ih m' t).weaken fun m'' u _ _ second => second.trans first

/-- A round asks once at most. -/
theorem asks_round (before : Before) (m : Merging) (s : Host) :
    Asks before 1 (m.round before) s := by
  obtain ⟨as, bs, taken⟩ := m
  cases as with
  | nil => exact (Asks.pure _).mono (by omega)
  | cons a as =>
    cases bs with
    | nil => exact (Asks.pure _).mono (by omega)
    | cons b bs =>
      refine (Asks.question b a).bind (k := 0) fun answer t _ => ?_
      cases answer <;> exact Asks.pure _

theorem asks_rounds (before : Before) (n : Nat) (m : Merging) (s : Host) :
    Asks before n (rounds before n m) s := by
  induction n generalizing m s with
  | zero => exact Asks.pure _
  | succ n ih => exact ((asks_round before m s).bind fun m' t _ => ih m' t).mono (by omega)

end Merging

/-! ## Merging and sorting -/

variable {before : Before} {s : Host}

theorem merge_cons_cons (before : Before) (a b : Handle) (as bs : List Handle) :
    merge before (a :: as) (b :: bs) = do
      if ← before b a then return b :: (← merge before (a :: as) bs)
          else return a :: (← merge before as (b :: bs)) :=
  rfl

/-- A merge that is under way is finished by merging what is left. -/
theorem rounds_eq (before : Before) {n : Nat} {as bs : List Handle} (taken : List Handle)
    (enough : as.length + bs.length ≤ n) :
    (do return (← Merging.rounds before n ⟨as, bs, taken⟩).whole) =
      do return taken ++ (← merge before as bs) := by
  induction n generalizing as bs taken with
  | zero =>
    have noneA : as = [] := List.length_eq_zero_iff.mp (by omega)
    subst noneA
    rfl
  | succ n ih =>
    cases as with
    | nil =>
      rw [Merging.rounds_finished (.inl rfl)]
      rfl
    | cons a as =>
      cases bs with
      | nil =>
        rw [Merging.rounds_finished (.inr rfl)]
        simp [Merging.whole, merge, mergeInto]
      | cons b bs =>
        simp only [List.length_cons] at enough
        have right := @ih (a :: as) bs (taken ++ [b]) (by simp only [List.length_cons]; omega)
        have left := @ih as (b :: bs) (taken ++ [a]) (by simp only [List.length_cons]; omega)
        rw [merge_cons_cons, Merging.rounds, Merging.round]
        simp only [bind_assoc] at right left ⊢
        congr 1
        funext answer
        cases answer with
        | true => simpa using right
        | false => simpa using left

/-- **A merge goes in rounds**, as many of them as there are elements. -/
theorem merge_eq_rounds (before : Before) (as bs : List Handle) :
    merge before as bs =
      do return (← Merging.rounds before (as.length + bs.length) ⟨as, bs, []⟩).whole := by
  have equal := rounds_eq before [] (Nat.le_refl (as.length + bs.length))
  simpa using equal.symm

theorem perm_merge (before : Before) (as bs : List Handle) (s : Host) :
    (Course.anywhere Host).Leads (merge before as bs) s fun ws _ => ws.Perm (as ++ bs) := by
  rw [merge_eq_rounds]
  exact (Merging.perm_rounds before _ _ s).bind fun m t _ _ perm => .pure trivial perm

theorem asks_merge (before : Before) (as bs : List Handle) (s : Host) :
    Asks before (as.length + bs.length) (merge before as bs) s := by
  rw [merge_eq_rounds]
  exact (Merging.asks_rounds before _ _ s).bind (k := 0) fun m t _ => Asks.pure _

/-- **Nothing is lost and nothing made twice**, whatever is answered. -/
theorem perm_mergeSortTo (before : Before) (n : Nat) (vs : List Handle) (s : Host) :
    (Course.anywhere Host).Leads (mergeSortTo before n vs) s fun ws _ => ws.Perm vs := by
  induction n generalizing vs s with
  | zero => exact .pure trivial (.refl vs)
  | succ n ih =>
    rw [mergeSortTo]
    split
    · exact .pure trivial (.refl vs)
    · refine (ih _ s).bind fun ls t _ _ left => (ih _ t).bind fun rs u _ _ right => ?_
      refine (perm_merge before ls rs u).weaken fun ws x _ _ merged => ?_
      have parts := left.append right
      rw [List.take_append_drop] at parts
      exact merged.trans parts

/-- **So many questions are enough**: one for every element at every level of halving. -/
theorem asks_mergeSortTo (before : Before) (n : Nat) {vs : List Handle} {k : Nat}
    (small : vs.length ≤ 2 ^ k) (s : Host) :
    Asks before (vs.length * k) (mergeSortTo before n vs) s := by
  induction n generalizing vs k s with
  | zero => exact (Asks.pure _).mono (by omega)
  | succ n ih =>
    rw [mergeSortTo]
    split
    · exact (Asks.pure _).mono (by omega)
    next many =>
      obtain ⟨j, rfl⟩ : ∃ j, k = j + 1 := Nat.exists_eq_succ_of_ne_zero fun none => by
        simp [none] at small; omega
      have halves : vs.length ≤ 2 ^ j * 2 := by rwa [← Nat.pow_succ]
      have lengthL : (vs.take (vs.length / 2)).length = vs.length / 2 := by
        rw [List.length_take]; omega
      have lengthR : (vs.drop (vs.length / 2)).length = vs.length - vs.length / 2 :=
        List.length_drop ..
      have left := @ih (vs.take (vs.length / 2)) j (by omega) s
      have most : vs.length / 2 * j + ((vs.length - vs.length / 2) * j + vs.length) =
          vs.length * (j + 1) := by
        have sum : vs.length = vs.length / 2 + (vs.length - vs.length / 2) := by omega
        calc vs.length / 2 * j + ((vs.length - vs.length / 2) * j + vs.length)
            = (vs.length / 2 + (vs.length - vs.length / 2)) * j + vs.length := by ring
          _ = vs.length * (j + 1) := by rw [← sum]; ring
      rw [lengthL] at left
      rw [← most]
      refine left.bind fun ls t ranL => ?_
      have right := @ih (vs.drop (vs.length / 2)) j (by omega) t
      rw [lengthR] at right
      refine right.bind fun rs u ranR => ?_
      have permL := ((perm_mergeSortTo before n _ s).ok ranL).2.2
      have permR := ((perm_mergeSortTo before n _ t).ok ranR).2.2
      refine (asks_merge before ls rs u).mono ?_
      rw [permL.length_eq, permR.length_eq, lengthL, lengthR]
      omega

/-! ## Storing what has been sorted -/

/-- Elements that have been stored are in the array that is there. -/
theorem HeapM.stored_of_setElements {h h' : Heap} {array : Handle} {items : List Handle}
    (run : setElements array items h = .ok () h') :
    ∃ q, h.data array = .array q ∧
      h' = h.setCell array ⟨.array { q with items := items, filled := items.length }, false⟩ := by
  obtain ⟨-, searched⟩ | ⟨-, refused⟩ := rejectCycles_cases h array items
  · obtain ⟨unlocked, run⟩ := ok_of_writable ((bind_of_ok searched _).symm.trans run)
    cases held : h.data array with
    | array q =>
      rw [held] at run
      cases room : q.hasRoom items.length with
      | true =>
        have replaced :
            q.replace items = .ok { q with items := items, filled := items.length } := by
          simp only [Sequence.replace, room, if_true]
        exact ⟨q, rfl, (EStateM.Result.ok.inj (run.symm.trans (store_of_ok replaced unlocked))).2⟩
      | false =>
        simp only [Sequence.replace, room, Bool.false_eq_true, if_false] at run
        cases run
    | leaf _ | dictionary _ | record _ =>
      rw [held] at run
      cases run
  · have ends : setElements array items h = .error .containsItself h := bind_of_error refused _
    rw [ends] at run
    cases run

namespace Host

variable {run : Runner} {array test : Handle} {t : Host}

/-- The greatest number of questions that sorting so many elements takes. -/
def mostQuestions (length : Nat) : Nat := length * Nat.clog 2 length

/-- **How a sort ends.** Either the elements that were taken down are stored, in some order, after
the last question; or the state is the one that the last question has left. -/
theorem perform_sort_cases (run : Runner) (first : param "A" t = .ok array t)
    (second : param "compareF" t = .ok test t) :
    ∃ asked halt u, Tested (holds run test) t asked halt u ∧
      asked.length ≤ mostQuestions (t.heap.parts array).length ∧
      ((∃ q r items, t.heap.data array = .array q ∧ u.heap.data array = .array r ∧
        items.Perm q.items ∧ halt = none ∧
        let h :=
          u.heap.setCell array ⟨.array { r with items := items, filled := items.length }, false⟩
        Routine.perform run .sort t = .ok ⟨h.size⟩ { u with heap := h.push ⟨.leaf .null, true⟩ }) ∨
      ∃ e, Routine.perform run .sort t = .error e u ∧ (∀ e', halt = some e' → e = e') ∧
        (e = .exhausted → halt = some .exhausted)) := by
  cases held : t.heap.data array with
  | leaf _ | dictionary _ | record _ =>
    have refused : ∃ f, onHeap (HeapM.elements array) t = .error (.fault f) t := by
      rw [HeapM.elements, onHeap_ask]
      simp only [held, of]
      exact ⟨_, rfl⟩
    obtain ⟨f, refused⟩ := refused
    refine ⟨[], none, t, .nothing t, Nat.zero_le _, .inr ⟨.fault f, ?_, by simp, by simp⟩⟩
    simp only [Routine.perform, HostM.sort, Bind.bind, EStateM.bind, first, second, refused]
  | array q =>
    have parts : t.heap.parts array = q.items := by rw [Heap.parts, held, Data.parts]
    have listed := onHeap_elements held
    obtain ⟨asked, halt, tested, most, fails, ends⟩ :=
      asks_mergeSortTo (holds run test) q.items.length (Nat.le_pow_clog (by omega) q.items.length) t
    rw [← parts] at most
    cases ran : mergeSort (holds run test) q.items t with
    | error e u =>
      have ended : endState (mergeSort (holds run test) q.items) t = u := by rw [endState, ran]
      refine ⟨asked, halt, u, ended ▸ tested, most,
        .inr ⟨e, ?_, fun e' failed => ?_, fun gaveUp => ?_⟩⟩
      · simp only [Routine.perform, HostM.sort, Bind.bind, EStateM.bind, first, second, listed, ran]
      · exact (EStateM.Result.error.inj (ran.symm.trans (fails e' failed))).1
      · exact ends ⟨u, gaveUp ▸ ran⟩
    | ok items u =>
      have ended : endState (mergeSort (holds run test) q.items) t = u := by rw [endState, ran]
      have answered : halt = none := by
        cases halt with
        | none => rfl
        | some e => cases ran.symm.trans (fails e rfl)
      refine ⟨asked, halt, u, ended ▸ tested, most, ?_⟩
      cases stored : HeapM.setElements array items u.heap with
      | ok _ h =>
        obtain ⟨r, there, rfl⟩ := HeapM.stored_of_setElements stored
        refine .inl ⟨q, r, items, rfl, there, ?_, answered,
          perform_sort first second held ran stored⟩
        exact ((perm_mergeSortTo (holds run test) _ q.items t).ok ran).2.2
      | error f h =>
        obtain rfl : h = u.heap := HeapM.atomic_setElements.kept stored
        have refused : onHeap (HeapM.setElements array items) u = .error (.fault f) u := by
          simp only [onHeap, stored]
        refine .inr ⟨.fault f, ?_, by simp [answered], by simp⟩
        simp only [Routine.perform, HostM.sort, Bind.bind, EStateM.bind, first, second,
          listed, ran, refused]

variable {s : Host} {key : String}

/-- **Sorting is safe by any predicate.** A sort puts questions to the predicate one after the
other, only so many of them, and up to the first that fails. Either it succeeds: then all have been
answered, and the array, as the last of them has left it, has been given the elements that it held
at the beginning, in some order, and nothing else has been stored anywhere. Or it fails, as the
predicate does if that fails, and the heap is as the last question has left it. It gives up only if
a question does. Every merge goes in rounds, as many as there are elements, and every round but
those after the end of a side takes one element. -/
theorem sort_safe (offered : s.Offers key .sort) (array test : Handle) (n : Nat) :
    (∃ asked halt u,
      Tested (holds (.free n) test) (s.inCall [("A", array), ("compareF", test)]) asked halt u ∧
      asked.length ≤ mostQuestions (s.heap.parts array).length ∧
      ((∃ w t q r items, call (.free (n + 1)) key [array, test] s = .ok w t ∧ halt = none ∧
        s.heap.data array = .array q ∧
          u.heap.data array = .array r ∧ items.Perm q.items ∧
          t.heap.cell array = ⟨.array { r with items := items, filled := items.length }, false⟩ ∧
          ∀ v, u.heap.Made v → v ≠ array → t.heap.cell v = u.heap.cell v) ∨
        ∃ e t, call (.free (n + 1)) key [array, test] s = .error e t ∧ t.heap = u.heap ∧
        (∀ e', halt = some e' → e = e') ∧
          (e = .exhausted → halt = some .exhausted))) ∧
    (∀ (before : Before) (as bs : List Handle),
      merge before as bs =
        do return (← Merging.rounds before (as.length + bs.length) ⟨as, bs, []⟩).whole) ∧
    ∀ (before : Before) (m m' : Merging) (t u : Host), ¬ m.Finished → m.round before t = .ok m' u →
      m.Takes m' := by
  refine ⟨?_, merge_eq_rounds,
    fun before m m' t u unfinished ran => Merging.round_takes unfinished ran⟩
  have takes : Routine.sort.Takes ["A", "compareF"] := ⟨rfl, by decide⟩
  by_cases ready : s.Ready 1
  · have called := run_call (n := n) [array, test] offered takes rfl ready
    have first : param "A" (s.inCall [("A", array), ("compareF", test)]) = .ok array _ :=
      param_inCall (by decide) rfl
    have second : param "compareF" (s.inCall [("A", array), ("compareF", test)]) = .ok test _ :=
      param_inCall (by decide) rfl
    obtain ⟨asked, halt, u, tested, most, ends⟩ := perform_sort_cases (.free n) first second
    refine ⟨asked, halt, u, tested, most, ?_⟩
    obtain ⟨q, r, items, held, there, perm, answered, ran⟩ | ⟨e, failed, raised⟩ := ends
    · obtain ⟨stored, others⟩ := Heap.cell_stored (Heap.made_of_array there)
        ⟨.array { r with items := items, filled := items.length }, false⟩ ⟨.leaf .null, true⟩
      exact .inl ⟨_, _, q, r, items, called.trans (always_of_ok ran), answered, held, there, perm,
        stored, others⟩
    · exact .inr ⟨e, _, called.trans (always_of_error failed), rfl, raised⟩
  · obtain ⟨f, refused⟩ := call_of_not_ready (.free (n + 1)) [array, test] offered takes rfl ready
    exact ⟨[], none, _, .nothing _, Nat.zero_le _,
      .inr ⟨.fault f, s, refused, rfl, by simp, by simp⟩⟩

/-- A host that offers sorting, with three integers and a predicate that holds of everything. -/
def yeaSayer : Host :=
  Session.after (endState (Library.installRoutine .sort) (.bare .default))
    [.hold "list" (integers 1 [2, 3, 1]),
      .hold "yes" (.function "Yes" [⟨"a", .reference⟩, ⟨"b", .reference⟩]
        [.literal (.boolean true)])]

/-- The predicate puts each of two elements before the other. Still the array keeps its elements, in
some order: each is taken before those that were there before it. -/
theorem sort_safe_three :
    yeaSayer.Offers (marked "Sort") .sort ∧
    (holds (.free 8) ⟨5⟩ ⟨1⟩ ⟨2⟩).run' yeaSayer = some true ∧
      (holds (.free 8) ⟨5⟩ ⟨2⟩ ⟨1⟩).run' yeaSayer = some true ∧
    ∃ (asked : List (Handle × Handle)) (u t : Host) (w : Handle) (r : Sequence Handle)
      (items : List Handle),
      Tested (holds (.free 8) ⟨5⟩) (yeaSayer.inCall [("A", ⟨4⟩), ("compareF", ⟨5⟩)]) asked none u ∧
      asked.length ≤ 6 ∧
      call (.free 9) (marked "Sort") [⟨4⟩, ⟨5⟩] yeaSayer = .ok w t ∧ items.Perm [⟨1⟩, ⟨2⟩, ⟨3⟩] ∧
      t.heap.cell ⟨4⟩ = ⟨.array { r with items := items, filled := items.length }, false⟩ ∧
      items = [⟨3⟩, ⟨2⟩, ⟨1⟩] := by
  have offered : yeaSayer.Offers (marked "Sort") .sort := by decide +kernel
  have listed : yeaSayer.heap.parts ⟨4⟩ = [⟨1⟩, ⟨2⟩, ⟨3⟩] := by decide +kernel
  have sorted : EStateM.run' (do
      let _ ← call (.free 9) (marked "Sort") [⟨4⟩, ⟨5⟩]
      look fun t => t.heap.parts ⟨4⟩) yeaSayer = some [⟨3⟩, ⟨2⟩, ⟨1⟩] := by decide +kernel
  refine ⟨offered, by decide +kernel, by decide +kernel, ?_⟩
  -- what the kernel has computed is all that counts of the host
  generalize yeaSayer = s at offered listed sorted ⊢
  obtain ⟨⟨asked, halt, u, tested, most, ends⟩, -⟩ := sort_safe offered ⟨4⟩ ⟨5⟩ 8
  have six : mostQuestions (s.heap.parts ⟨4⟩).length = 6 := by
    rw [listed, mostQuestions]
    decide
  obtain ⟨w, t, q, r, items, called, rfl, held, -, perm, stored, -⟩ | ⟨e, t, failed, -⟩ := ends
  · have before : q.items = [⟨1⟩, ⟨2⟩, ⟨3⟩] := by
      rw [Heap.parts, held] at listed
      exact listed
    have after : t.heap.parts ⟨4⟩ = items := by rw [Heap.parts, Heap.data, stored]; rfl
    simp only [EStateM.run', EStateM.run, Bind.bind, EStateM.bind, called, look, after,
      Option.some.injEq] at sorted
    exact ⟨asked, u, t, w, r, items, tested, six ▸ most, called, before ▸ perm, stored, sorted⟩
  · simp only [EStateM.run', EStateM.run, Bind.bind, EStateM.bind, failed] at sorted
    cases sorted

end Host

end ScriptHost
