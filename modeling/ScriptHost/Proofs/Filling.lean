import Mathlib.Data.List.Perm.Basic
import ScriptHost.Proofs.Mutation
import ScriptHost.Proofs.Schema

/-!
# Filling the slots of an array

A declared array begins with default elements in slots that additions take one after the other. One
number tells the slots that have been taken from those that have not: the first `filled` elements
are taken. Additions write over the element at that place, whatever it is.

`Arranges.keeps_given` is what holds of any additions, insertions and exchanges in an array, and of
anything else that happens in between. Nothing is lost but what additions write over, and that is
never more than there were slots to take at the beginning; so nothing is lost from an array without
such slots. If no insertion goes behind the boundary and no exchange goes across it, additions write
over default elements only, and all that was given to the array is in it. An insertion behind the
boundary, or an exchange across it, can put what was given in the way of the next addition
(`Arranges.loses_given`).
-/

set_option autoImplicit false

namespace ScriptHost

namespace Sequence

open scoped List

variable {ρ : Type} {s t u : Sequence ρ} {v : ρ} {given lost : List ρ}

/-- The elements in slots that have been taken. -/
def taken (s : Sequence ρ) : List ρ := s.items.take s.filled

/-- The elements that additions will write over. -/
def untaken (s : Sequence ρ) : List ρ := s.items.drop s.filled

theorem taken_append_untaken (s : Sequence ρ) : s.taken ++ s.untaken = s.items :=
  List.take_append_drop _ _

/-- A sequence of given elements has no slots to take. -/
@[simp] theorem untaken_ofItems (start : Integer) (items : List ρ) (policy : RangePolicy) :
    (ofItems start items policy).untaken = [] := List.drop_length

/-- In a declared sequence no slot is taken yet. -/
@[simp] theorem untaken_declared (start : Integer) (slots : List ρ) (element : TypeDesc)
    (policy : RangePolicy) : (declared start slots element policy).untaken = slots := rfl

/-! ## Accounts -/

/-- What became of the elements of `s` and of what was given, when `t` came of it: all is in `t` but
what was lost, and each loss used up a slot. -/
structure Accounts (s : Sequence ρ) (given lost : List ρ) (t : Sequence ρ) : Prop where
  items : (t.items ++ lost).Perm (s.items ++ given)
  slots : lost.length + t.untaken.length = s.untaken.length

/-- What was given is in slots that are taken, and what was lost had been in slots that were not. -/
structure Settles (s : Sequence ρ) (given lost : List ρ) (t : Sequence ρ) : Prop where
  taken : t.taken.Perm (s.taken ++ given)
  untaken : (lost ++ t.untaken).Perm s.untaken

theorem Accounts.refl (s : Sequence ρ) : s.Accounts [] [] s := ⟨.refl _, by simp⟩

theorem Settles.refl (s : Sequence ρ) : s.Settles [] [] s := ⟨by simp, .refl _⟩

theorem Accounts.trans {given' lost' : List ρ} (first : s.Accounts given lost t)
    (second : t.Accounts given' lost' u) : s.Accounts (given ++ given') (lost ++ lost') u where
  items := by
    calc u.items ++ (lost ++ lost')
      _ ~ u.items ++ (lost' ++ lost) := .append_left _ List.perm_append_comm
      _ = u.items ++ lost' ++ lost := (List.append_assoc ..).symm
      _ ~ t.items ++ given' ++ lost := second.items.append_right _
      _ = t.items ++ (given' ++ lost) := List.append_assoc ..
      _ ~ t.items ++ (lost ++ given') := .append_left _ List.perm_append_comm
      _ = t.items ++ lost ++ given' := (List.append_assoc ..).symm
      _ ~ s.items ++ given ++ given' := first.items.append_right _
      _ = s.items ++ (given ++ given') := List.append_assoc ..
  slots := by
    have one := first.slots
    have two := second.slots
    simp only [List.length_append]
    omega

theorem Settles.trans {given' lost' : List ρ} (first : s.Settles given lost t)
    (second : t.Settles given' lost' u) : s.Settles (given ++ given') (lost ++ lost') u where
  taken := by
    calc u.taken
      _ ~ t.taken ++ given' := second.taken
      _ ~ s.taken ++ given ++ given' := first.taken.append_right _
      _ = s.taken ++ (given ++ given') := List.append_assoc ..
  untaken := by
    calc lost ++ lost' ++ u.untaken
      _ = lost ++ (lost' ++ u.untaken) := List.append_assoc ..
      _ ~ lost ++ t.untaken := second.untaken.append_left _
      _ ~ s.untaken := first.untaken

/-- Where all is settled, the accounts are right. -/
theorem Settles.accounts (settles : s.Settles given lost t) : s.Accounts given lost t where
  items := by
    calc t.items ++ lost
      _ = t.taken ++ t.untaken ++ lost := by rw [taken_append_untaken]
      _ = t.taken ++ (t.untaken ++ lost) := List.append_assoc ..
      _ ~ t.taken ++ (lost ++ t.untaken) := .append_left _ List.perm_append_comm
      _ ~ s.taken ++ given ++ s.untaken := settles.taken.append settles.untaken
      _ = s.taken ++ (given ++ s.untaken) := List.append_assoc ..
      _ ~ s.taken ++ (s.untaken ++ given) := .append_left _ List.perm_append_comm
      _ = s.items ++ given := by rw [← List.append_assoc, taken_append_untaken]
  slots := by simpa using settles.untaken.length_eq

/-! ## Single steps -/

/-- An addition settles what it is given, and loses the first element that is in a slot not
taken. -/
theorem push_settles (run : s.push v = .ok t) : s.Settles [v] (s.untaken.take 1) t := by
  unfold push at run
  split at run
  next inside =>
    cases run
    have inside : s.filled < s.items.length := inside
    refine ⟨.of_eq ?_, .of_eq ?_⟩
    · rw [taken, taken, List.take_succ_eq_append_getElem (by simpa using inside),
        List.getElem_set_self, List.take_set_of_le (Nat.le_refl _)]
    · rw [untaken, untaken, List.drop_set_of_lt (Nat.lt_succ_self _),
        List.drop_eq_getElem_cons inside]
      simp
  next full =>
    have full : s.items.length ≤ s.filled := Nat.le_of_not_lt full
    split at run
    · cases run
      refine ⟨.of_eq ?_, .of_eq ?_⟩
      · rw [taken, taken, List.take_of_length_le full, List.take_of_length_le (by simpa using full)]
      · rw [untaken, untaken, List.drop_of_length_le full,
          List.drop_of_length_le (by simpa using full)]
        rfl
    · cases run

/-- Insertions lose nothing, wherever they go. -/
theorem insert_accounts {index : Integer} (run : s.insert index v = .ok t) :
    s.Accounts [v] [] t := by
  unfold insert at run
  split at run
  · cases run
  next inside =>
    split at run
    · cases run
      have place : (s.offset index).toNat ≤ s.items.length := by
        simp only [length] at inside
        omega
      refine ⟨?_, ?_⟩
      · calc s.items.insertIdx (s.offset index).toNat v ++ []
          _ = s.items.insertIdx (s.offset index).toNat v := List.append_nil _
          _ ~ v :: s.items := List.perm_insertIdx v s.items place
          _ ~ s.items ++ [v] := (List.perm_append_singleton v s.items).symm
      · simp only [untaken, List.length_drop, List.length_insertIdx_of_le_length place,
          List.length_nil]
        omega
    · cases run

/-! Where nothing is lost and one side of the boundary is as it was, the accounts settle the other
side. -/

theorem Accounts.settles (accounts : s.Accounts given [] t) (same : t.untaken = s.untaken) :
    s.Settles given [] t where
  taken := by
    have whole : t.taken ++ s.untaken ~ s.taken ++ given ++ s.untaken := by
      calc t.taken ++ s.untaken
        _ = t.items ++ [] := by rw [← same, taken_append_untaken, List.append_nil]
        _ ~ s.items ++ given := accounts.items
        _ = s.taken ++ (s.untaken ++ given) := by rw [← List.append_assoc, taken_append_untaken]
        _ ~ s.taken ++ (given ++ s.untaken) := .append_left _ List.perm_append_comm
        _ = s.taken ++ given ++ s.untaken := (List.append_assoc ..).symm
    exact (List.perm_append_right_iff _).mp whole
  untaken := by rw [List.nil_append, same]

theorem Accounts.settles_of_taken (accounts : s.Accounts [] [] t) (same : t.taken = s.taken) :
    s.Settles [] [] t where
  taken := by rw [List.append_nil, same]
  untaken := by
    have whole : s.taken ++ t.untaken ~ s.taken ++ s.untaken := by
      calc s.taken ++ t.untaken
        _ = t.items ++ [] := by rw [← same, taken_append_untaken, List.append_nil]
        _ ~ s.items ++ [] := accounts.items
        _ = s.taken ++ s.untaken := by rw [List.append_nil, taken_append_untaken]
    exact (List.perm_append_left_iff _).mp whole

theorem drop_insertIdx {l : List ρ} {i n : Nat} (inside : i ≤ l.length) (before : i ≤ n) :
    (l.insertIdx i v).drop (n + 1) = l.drop n := by
  induction i generalizing l n with
  | zero => simp
  | succ i ih =>
    obtain ⟨n, rfl⟩ := Nat.exists_eq_add_of_lt before
    cases l with
    | nil => simp at inside
    | cons x l =>
      have rest := ih (l := l) (n := i + n) (by simpa using inside) (by omega)
      simpa [Nat.add_right_comm] using rest

/-- An insertion among the slots that are taken, or right behind them, takes a slot of its own. -/
theorem insert_settles {index : Integer} (run : s.insert index v = .ok t)
    (before : s.offset index ≤ s.filled) : s.Settles [v] [] t := by
  refine (insert_accounts run).settles ?_
  unfold insert at run
  split at run
  · cases run
  next inside =>
    split at run
    · cases run
      simp only [length] at inside
      exact drop_insertIdx (by omega) (by omega)
    · cases run

/-- What an exchange does. -/
theorem swap_eq {a b : Integer} (run : s.swap a b = .ok t) :
    ∃ (i j : Nat) (left : i < s.items.length) (right : j < s.items.length), s.offset a = i ∧
      s.offset b = j ∧ t = { s with items := (s.items.set i s.items[j]).set j s.items[i] } := by
  obtain ⟨i, first, rest⟩ := Except.ok_of_bind run
  obtain ⟨j, second, rest⟩ := Except.ok_of_bind rest
  cases rest
  unfold position at first second
  split at first
  next left =>
    split at second
    next right =>
      cases first
      cases second
      exact ⟨_, _, toNat_offset_lt left, toNat_offset_lt right, by omega, by omega, rfl⟩
    · cases second
  · cases first

theorem swap_accounts {a b : Integer} (run : s.swap a b = .ok t) : s.Accounts [] [] t := by
  obtain ⟨i, j, left, right, -, -, rfl⟩ := swap_eq run
  refine ⟨?_, by simp [untaken]⟩
  simpa using List.set_set_perm left right

/-- An exchange on one side of the boundary leaves the other side as it is. -/
theorem swap_settles {a b : Integer} (run : s.swap a b = .ok t)
    (aside : s.offset a < s.filled ↔ s.offset b < s.filled) : s.Settles [] [] t := by
  have accounts := swap_accounts run
  obtain ⟨i, j, left, right, first, second, rfl⟩ := swap_eq run
  rw [first, second] at aside
  by_cases before : i < s.filled
  · apply accounts.settles
    simp only [untaken]
    rw [List.drop_set_of_lt (by omega), List.drop_set_of_lt before]
  · apply accounts.settles_of_taken
    simp only [taken]
    rw [List.take_set_of_le (by omega), List.take_set_of_le (by omega)]

end Sequence

/-! ## Steps over the heap -/

/-- An addition to an array that is not locked, of a value that does not contain it. -/
theorem HeapM.add_array {h : Heap} {target value : Handle} {s : Sequence Handle}
    (held : h.data target = .array s) (unlocked : h.isLocked target = false)
    (apart : ¬ h.Reaches value target) :
    add target value h = (do
      of (checkElement s.element (h.kind value))
      write target (.array (← of (s.push value)))) h := by
  have contents : dataOf target h = .ok (.array s) h := by simp only [dataOf, look, held]
  apply (bind_of_ok contents _).trans
  apply (bind_of_ok (rejectCycle_of_not_reaches apart) _).trans
  exact bind_of_ok (writable_of_unlocked unlocked) _

/-- An operation that gives an array one more element or moves some of them. -/
inductive Arrangement where
  | add (value : Handle)
  | insertAt (value : Handle) (position : Integer)
  | swap (a b : Integer)

namespace Arrangement

/-- The operation on an array. -/
def mutation : Arrangement → Mutation
  | .add value => .add value
  | .insertAt value position => .insertAt value position
  | .swap a b => .swap a b

/-- The operation on the contents of an array. -/
def apply (s : Sequence Handle) : Arrangement → Except Fault (Sequence Handle)
  | .add value => s.push value
  | .insertAt value position => s.insert position value
  | .swap a b => s.swap a b

/-- The operation keeps what is in taken slots before what is not. -/
def InOrder (s : Sequence Handle) : Arrangement → Prop
  | .add _ => True
  | .insertAt _ position => s.offset position ≤ s.filled
  | .swap a b => s.offset a < s.filled ↔ s.offset b < s.filled

variable {s t : Sequence Handle} {h : Heap} {target : Handle}

/-- **One step** accounts for everything, and settles it if it is in order. -/
theorem apply_accounts (a : Arrangement) (run : a.apply s = .ok t) :
    ∃ lost, s.Accounts a.mutation.stores lost t ∧
      (a.InOrder s → s.Settles a.mutation.stores lost t) := by
  cases a with
  | add value => exact ⟨_, (Sequence.push_settles run).accounts, fun _ => Sequence.push_settles run⟩
  | insertAt value position =>
    exact ⟨[], Sequence.insert_accounts run, fun before => Sequence.insert_settles run before⟩
  | swap a b => exact ⟨[], Sequence.swap_accounts run, fun aside => Sequence.swap_settles run aside⟩

/-- New contents for an array are put into it if there are any. -/
theorem store_cases (x : Except Fault (Sequence Handle)) (unlocked : h.isLocked target = false) :
    (∃ f, (do HeapM.write target (.array (← HeapM.of x))) h = .error f h) ∨
      ∃ t, x = .ok t ∧ (do HeapM.write target (.array (← HeapM.of x))) h =
        .ok () (h.setCell target ⟨.array t, false⟩) := by
  cases x with
  | error f => exact .inl ⟨f, HeapM.bind_of_error rfl _⟩
  | ok t => exact .inr ⟨t, rfl, HeapM.store_of_ok rfl unlocked⟩

/-- **One step over the heap** fails and changes nothing, or puts the new contents into the
array. -/
theorem perform_cases (a : Arrangement) (held : h.data target = .array s) :
    (∃ f, a.mutation.perform target h = .error f h) ∨
      ∃ t, a.apply s = .ok t ∧
      a.mutation.perform target h = .ok () (h.setCell target ⟨.array t, false⟩) := by
  have contents : HeapM.dataOf target h = .ok (.array s) h := by
    simp only [HeapM.dataOf, HeapM.look, held]
  cases locked : h.isLocked target with
  | true =>
    obtain ⟨f, run, -⟩ := Mutation.refused locked a.mutation
    exact .inl ⟨f, run⟩
  | false =>
    have free : HeapM.writable target h = .ok (.array s) h := by
      simp [HeapM.writable, HeapM.ask, locked, held]
    cases a with
    | add value =>
      by_cases reach : h.Reaches value target
      · refine .inl ⟨.containsItself, (HeapM.bind_of_ok contents _).trans ?_⟩
        exact HeapM.bind_of_error (HeapM.rejectCycle_of_reaches reach) _
      · rw [mutation, Mutation.perform, HeapM.add_array held locked reach]
        cases check : HeapM.checkElement s.element (h.kind value) with
        | error f => exact .inl ⟨f, HeapM.bind_of_error rfl _⟩
        | ok _ => exact store_cases _ locked
    | insertAt value position =>
      by_cases reach : h.Reaches value target
      · exact .inl ⟨_, HeapM.bind_of_error (HeapM.rejectCycle_of_reaches reach) _⟩
      · have rest : (Mutation.insertAt value position).perform target h =
            (do HeapM.write target (.array (← HeapM.of (s.insert position value)))) h :=
          (HeapM.bind_of_ok (HeapM.rejectCycle_of_not_reaches reach) _).trans
            (HeapM.bind_of_ok free _)
        rw [mutation, rest]
        exact store_cases _ locked
    | swap a b =>
      have rest : (Mutation.swap a b).perform target h =
          (do HeapM.write target (.array (← HeapM.of (s.swap a b)))) h :=
        HeapM.bind_of_ok free _
      rw [mutation, rest]
      exact store_cases _ locked

end Arrangement

/-! ## Runs -/

/-- Operations on an array one after the other, each as `allows` has it, with the values that were
given to those that did not fail. In between, anything can happen to other values. -/
inductive Arranges (target : Handle) (allows : Sequence Handle → Arrangement → Prop) (h : Heap) :
    List Handle → Heap → Prop where
  | start : Arranges target allows h [] h
  | elsewhere {given : List Handle} {h₁ h₂ : Heap} (earlier : Arranges target allows h given h₁)
    (same : h₂.data target = h₁.data target) : Arranges target allows h given h₂
  | failed {given : List Handle} {h₁ h₂ : Heap} {f : Fault} (a : Arrangement)
    (earlier : Arranges target allows h given h₁)
    (run : a.mutation.perform target h₁ = .error f h₂) :
    Arranges target allows h given h₂
  | done {given : List Handle} {h₁ h₂ : Heap} {s : Sequence Handle} (a : Arrangement)
    (earlier : Arranges target allows h given h₁) (held : h₁.data target = .array s)
    (allowed : allows s a)
    (run : a.mutation.perform target h₁ = .ok () h₂) :
      Arranges target allows h (given ++ a.mutation.stores) h₂

namespace Arranges

variable {target : Handle} {allows : Sequence Handle → Arrangement → Prop} {h h' : Heap}
  {given : List Handle} {s : Sequence Handle}

/-- **All steps** account for everything, and settle it if each is in order. -/
theorem accounts (run : Arranges target allows h given h') (held : h.data target = .array s) :
    ∃ t lost, h'.data target = .array t ∧ s.Accounts given lost t ∧
      ((∀ s a, allows s a → a.InOrder s) → s.Settles given lost t) := by
  induction run with
  | start => exact ⟨s, [], held, .refl s, fun _ => .refl s⟩
  | elsewhere _ same ih =>
    obtain ⟨t, lost, now, result⟩ := ih
    exact ⟨t, lost, same.trans now, result⟩
  | failed a _ run ih =>
    obtain ⟨t, lost, now, result⟩ := ih
    obtain ⟨g, refused⟩ | ⟨u, -, performed⟩ := a.perform_cases now
    · rw [refused] at run
      cases run
      exact ⟨t, lost, now, result⟩
    · rw [performed] at run
      cases run
  | done a _ held allowed run ih =>
    obtain ⟨t, lost, now, accounts, settles⟩ := ih
    obtain ⟨g, refused⟩ | ⟨u, applied, performed⟩ := a.perform_cases now
    · rw [refused] at run
      cases run
    · rw [performed] at run
      cases run
      obtain rfl : _ = t := by simpa using held.symm.trans now
      obtain ⟨more, step, settled⟩ := a.apply_accounts applied
      refine ⟨u, lost ++ more, ?_, accounts.trans step,
        fun order => (settles order).trans (settled (order _ a allowed))⟩
      exact Heap.data_stored now

/-- **Nothing else is lost.** After any additions, insertions and exchanges in an array, all its
elements and all that was given to it are in it, apart from what additions have written over, and
that is one element for each slot that they have taken. If every step was in order, they have
written over elements in such slots only. So if every step was in order, or if there were no slots
to take, all that was given to the array is in it. -/
theorem keeps_given (run : Arranges target allows h given h') (held : h.data target = .array s) :
    ∃ t lost, h'.data target = .array t ∧ (t.items ++ lost).Perm (s.items ++ given) ∧
      lost.length + t.untaken.length = s.untaken.length ∧
      ((∀ s a, allows s a → a.InOrder s) → t.taken.Perm (s.taken ++ given) ∧
        (lost ++ t.untaken).Perm s.untaken) ∧
      ((∀ s a, allows s a → a.InOrder s) ∨ s.untaken = [] → ∀ v ∈ given, v ∈ t.items) := by
  obtain ⟨t, lost, now, accounts, settles⟩ := run.accounts held
  refine ⟨t, lost, now, accounts.items, accounts.slots, fun order => ?_, ?_⟩
  · exact ⟨(settles order).taken, (settles order).untaken⟩
  · rintro (order | none) v mem
    · have inside : v ∈ t.taken := (settles order).taken.mem_iff.mpr (by simp [mem])
      exact List.mem_of_mem_take inside
    · have kept : lost = [] := by
        have slots := accounts.slots
        rw [none, List.length_nil] at slots
        exact List.length_eq_zero_iff.mp (by omega)
      have whole := accounts.items
      rw [kept, List.append_nil] at whole
      exact whole.mem_iff.mpr (by simp [mem])

/-- A declared array of two slots, and three numbers: the first is added, the second is inserted
before it, and the third is added in the slot that is left. -/
theorem keeps_given_numbers :
    let number := fun i => Cell.mk (.leaf (.integer i none)) false
    let heap := fun (items : List Handle) (filled : Nat) =>
      Heap.mk #[number 0, number 0, ⟨.array ⟨1, items, filled, some .integer, .refuse⟩, false⟩,
        number 1, number 2, number 3] 0
    Arranges ⟨2⟩ (fun s a => a.InOrder s) (heap [⟨0⟩, ⟨1⟩] 0) [⟨3⟩, ⟨4⟩, ⟨5⟩]
      (heap [⟨4⟩, ⟨3⟩, ⟨5⟩] 3) ∧ ∀ v ∈ [Handle.mk 3, ⟨4⟩, ⟨5⟩],
      v ∈ (heap [⟨4⟩, ⟨3⟩, ⟨5⟩] 3).parts ⟨2⟩ := by
  intro number heap
  have one : Arranges ⟨2⟩ (fun s a => a.InOrder s) (heap [⟨0⟩, ⟨1⟩] 0) [⟨3⟩] (heap [⟨3⟩, ⟨1⟩] 1) :=
    .done (.add ⟨3⟩) .start rfl trivial rfl
  have two : Arranges ⟨2⟩ (fun s a => a.InOrder s) (heap [⟨0⟩, ⟨1⟩] 0) [⟨3⟩, ⟨4⟩]
      (heap [⟨4⟩, ⟨3⟩, ⟨1⟩] 2) :=
    .done (.insertAt ⟨4⟩ 1) one rfl (show (0 : Int) ≤ 1 by decide) rfl
  have three : Arranges ⟨2⟩ (fun s a => a.InOrder s) (heap [⟨0⟩, ⟨1⟩] 0) [⟨3⟩, ⟨4⟩, ⟨5⟩]
      (heap [⟨4⟩, ⟨3⟩, ⟨5⟩] 3) :=
    .done (.add ⟨5⟩) two rfl trivial rfl
  obtain ⟨t, lost, now, -, -, -, kept⟩ := keeps_given three rfl
  refine ⟨three, fun v mem => ?_⟩
  rw [Heap.parts, now]
  exact kept (.inl fun _ _ order => order) v mem

/-- **What was given can be lost.** In a declared array, an insertion behind a slot that is not
taken is written over by an addition; and an exchange puts what was added in the way of the next
addition. No step fails. -/
theorem loses_given :
    let s := Session.after (.bare .default)
      [.hold "one" (.unary .declare (.literal (.type (.array 1 1 .integer .refuse)))),
        .hold "two" (.unary .declare (.literal (.type (.array 1 2 .integer .refuse)))),
        .hold "seven" (.literal (.integer 7)), .hold "eight" (.literal (.integer 8))]
    let inserts := [Expr.binary (.insertAt 2) (.held "one") (.held "seven"),
      .binary .add (.held "one") (.held "eight")]
    let exchanges :=
      [Expr.binary .add (.held "two") (.held "seven"), .unary (.swap 1 2) (.held "two"),
        .binary .add (.held "two") (.held "eight")]
    ((Session.records none s (inserts ++ exchanges)).all (·.outcome.isOk) = true ∧
      (Named.find "seven" s.registers = some ⟨7⟩ ∧ s.heap.parts ⟨2⟩ = [⟨1⟩] ∧
        s.heap.parts ⟨6⟩ = [⟨4⟩, ⟨5⟩])) ∧
      (Session.after s inserts).heap.parts ⟨2⟩ = [⟨1⟩, ⟨8⟩] ∧
      (Session.after s exchanges).heap.parts ⟨6⟩ = [⟨5⟩, ⟨8⟩] := by
  decide +kernel

end Arranges

end ScriptHost
