import ScriptHost.Proofs.Filling
import ScriptHost.Proofs.Heap.Alike
import ScriptHost.Proofs.Host.Enduring
import ScriptHost.Proofs.RangePolicies

/-!
# Every element has an index

The elements of an array are under consecutive integers, and there is a greatest integer. An array
is indexed if its last element is within them, and if no more slots are taken than there are
(`Sequence.Indexed`). These are two numbers, the count of the slots and the length, that four
operations change in different ways, each with a check of its own. All four keep an array indexed
(`Step.indexed`), and no evaluation does anything else to an array. A copy has the indices and the
slots of its source.

So an array that was indexed when it was created stays so, and so do its copies, their copies, and
what comes of these. The arrays that come of an array in this way are its line (`Host.Line`), and
`Host.line_indexed` says what follows for all of them. An addition goes to the first slot that is
not taken, or right behind the last element: in both cases to position `filled`. Every element can
be read under its index. The last index is what it is said to be. And an insertion is accepted
wherever there is a place for it and an index for the last element.
-/

set_option autoImplicit false

namespace ScriptHost

/-! ## Contents -/

namespace Sequence

variable {ρ : Type} {s t : Sequence ρ} {v : ρ} {p : Integer}

/-- No more slots are taken than there are, and the last element has an index. -/
structure Indexed (s : Sequence ρ) : Prop where
  filled_le : s.filled ≤ s.length
  room : s.start.toInt + s.length - 1 ≤ Integer.greatest

/-- Contents that an array is created with: elements that are given, or slots of a declared
array. -/
inductive Created : Sequence ρ → Prop where
  | ofItems (start : Integer) (items : List ρ) (policy : RangePolicy) :
    Created (.ofItems start items policy)
  | declared (start : Integer) (slots : List ρ) (element : TypeDesc) (policy : RangePolicy) :
    Created (.declared start slots element policy)

theorem Created.indexed (created : s.Created)
    (room : s.start.toInt + s.length - 1 ≤ Integer.greatest) : s.Indexed := by
  refine ⟨?_, room⟩
  cases created with
  | ofItems start items policy => exact Nat.le_refl _
  | declared start slots element policy => exact Nat.zero_le _

theorem hasRoom_eq_true_iff {n : Nat} :
    s.hasRoom n = true ↔ s.start.toInt + n - 1 ≤ Integer.greatest := by simp [hasRoom]

/-- Indices and slots are all that counts. -/
theorem Indexed.congr {σ : Type} {t : Sequence σ} (indexed : s.Indexed) (start : t.start = s.start)
    (length : t.length = s.length) (filled : t.filled = s.filled) : t.Indexed where
  filled_le := by rw [filled, length]; exact indexed.filled_le
  room := by rw [start, length]; exact indexed.room

/-! ## What the operations come to -/

theorem insertIdx_eq {l : List ρ} {i : Nat} (inside : i ≤ l.length) :
    l.insertIdx i v = l.take i ++ v :: l.drop i := by
  induction i generalizing l with
  | zero => simp
  | succ i ih =>
    cases l with
    | nil => simp at inside
    | cons x l => simpa using ih (l := l) (by simpa using inside)

/-- The contents with a value at a position, and all from there on moved up by one. -/
def inserted (s : Sequence ρ) (i : Nat) (v : ρ) : Sequence ρ :=
  { s with items := s.items.take i ++ v :: s.items.drop i, filled := s.filled + 1 }

/-- The contents with a value in the next slot, in place of what was there, or behind the last
element. -/
def added (s : Sequence ρ) (v : ρ) : Sequence ρ :=
  { s with
    items := s.items.take s.filled ++ v :: s.items.drop (s.filled + 1)
    filled := s.filled + 1 }

/-- There is an index for a value at a position, and for the last element behind it. -/
structure Accepts (s : Sequence ρ) (p : Integer) : Prop where
  low : s.start.toInt ≤ p.toInt
  high : p.toInt ≤ s.start.toInt + s.length
  room : s.start.toInt + s.length ≤ Integer.greatest

theorem insert_of_accepts (accepts : s.Accepts p) :
    s.insert p v = .ok (s.inserted (s.offset p).toNat v) := by
  obtain ⟨low, high, room⟩ := accepts
  have within : ¬ (s.offset p < 0 ∨ s.length < s.offset p) := by
    rw [offset]
    omega
  have free : s.hasRoom (s.length + 1) = true := by
    rw [hasRoom_eq_true_iff]
    omega
  have place : (s.offset p).toNat ≤ s.items.length := by
    rw [length] at within
    omega
  rw [insert, if_neg within, if_pos free, inserted, insertIdx_eq place]

theorem insert_of_not_accepts (refuses : ¬ s.Accepts p) : ∃ f, s.insert p v = .error f := by
  unfold insert
  split
  · exact ⟨_, rfl⟩
  next within =>
    split
    next free =>
      rw [hasRoom_eq_true_iff] at free
      rw [offset] at within
      exact absurd ⟨by omega, by omega, by omega⟩ refuses
    · exact ⟨_, rfl⟩

namespace Indexed

/-- **An addition** finds its place: it is refused only if there is no index for it. -/
theorem push_of_room (indexed : s.Indexed) (room : s.start.toInt + s.filled ≤ Integer.greatest) :
    s.push v = .ok (s.added v) := by
  have most := indexed.filled_le
  unfold push
  split
  next slot => rw [added, List.set_eq_take_cons_drop v slot]
  next taken =>
    -- all slots are taken and there are no more of them than elements, so position `filled` is
    -- right behind the last one
    have full : s.filled = s.length := by omega
    have free : s.hasRoom (s.length + 1) = true := by
      rw [hasRoom_eq_true_iff]
      omega
    have all : s.items.take s.filled = s.items := List.take_of_length_le (by rw [full, length])
    have none : s.items.drop (s.filled + 1) = [] :=
      List.drop_of_length_le (by rw [full, length]; omega)
    rw [if_pos free, added, all, none]

/-- What is added is at position `filled`, and all else is where it was. -/
theorem getElem?_added (indexed : s.Indexed) (v : ρ) (i : Nat) :
    (s.added v).items[i]? = if i = s.filled then some v else s.items[i]? := by
  have before : (s.items.take s.filled).length = s.filled :=
    List.length_take_of_le indexed.filled_le
  obtain less | same | more := Nat.lt_trichotomy i s.filled
  · rw [added, List.getElem?_append_left (by omega), List.getElem?_take_of_lt less,
      if_neg (by omega)]
  · rw [added, List.getElem?_append_right (by omega), before, if_pos same, same, Nat.sub_self,
      List.getElem?_cons_zero]
  · obtain ⟨k, rfl⟩ := Nat.exists_eq_add_of_lt more
    rw [added, List.getElem?_append_right (by omega), before, if_neg (by omega)]
    rw [show s.filled + k + 1 - s.filled = k + 1 by omega, List.getElem?_cons_succ,
      List.getElem?_drop]
    rw [show s.filled + 1 + k = s.filled + k + 1 by omega]

theorem push_of_full (indexed : s.Indexed) (full : Integer.greatest < s.start.toInt + s.filled) :
    ∃ f, s.push v = .error f := by
  have room := indexed.room
  have most := indexed.filled_le
  have taken : ¬ s.filled < s.length := by omega
  have no : s.hasRoom (s.length + 1) = false := by
    rw [← Bool.not_eq_true, hasRoom_eq_true_iff]
    omega
  exact ⟨.arrayTooLong s.start (s.length + 1), by simp [push, taken, no]⟩

end Indexed

/-! ## Steps -/

/-- What an operation makes of the first index, the length and the slots: it takes a slot, makes
room for one more, moves elements, or replaces them all. -/
theorem Step.counts (step : s.Step t) : t.start = s.start ∧
    (t.filled = s.filled + 1 ∧ t.length = s.length ∧ s.filled < s.length ∨
      t.filled = s.filled + 1 ∧ t.length = s.length + 1 ∧ s.hasRoom t.length = true ∨
      t.filled = s.filled ∧ t.length = s.length ∨
      t.filled = t.length ∧ s.hasRoom t.length = true) := by
  cases step with
  | push v run =>
    unfold Sequence.push at run
    split at run
    next slot =>
      cases run
      exact ⟨rfl, .inl ⟨rfl, List.length_set, slot⟩⟩
    · split at run
      next free =>
        cases run
        have longer : (s.items ++ [v]).length = s.length + 1 := List.length_append
        exact ⟨rfl, .inr (.inl ⟨rfl, longer, by rw [length, longer]; exact free⟩)⟩
      · cases run
  | insert index v run =>
    by_cases accepts : s.Accepts index
    · rw [insert_of_accepts accepts] at run
      cases run
      have longer : (s.inserted (s.offset index).toNat v).length = s.length + 1 := by
        simp only [inserted, length, List.length_append, List.length_take, List.length_cons,
          List.length_drop]
        omega
      have room := accepts.room
      exact ⟨rfl, .inr (.inl ⟨rfl, longer, by rw [longer, hasRoom_eq_true_iff]; omega⟩)⟩
    · obtain ⟨f, refused⟩ := insert_of_not_accepts (v := v) accepts
      rw [refused] at run
      cases run
  | swap a b run =>
    obtain ⟨i, j, -, -, -, -, rfl⟩ := swap_eq run
    exact ⟨rfl, .inr (.inr (.inl ⟨rfl, by simp [length]⟩))⟩
  | replace items run =>
    unfold Sequence.replace at run
    split at run
    next free =>
      cases run
      exact ⟨rfl, .inr (.inr (.inr ⟨rfl, free⟩))⟩
    · cases run

/-- **One operation** keeps an array indexed. -/
theorem Step.indexed (step : s.Step t) (indexed : s.Indexed) : t.Indexed := by
  have most := indexed.filled_le
  have room := indexed.room
  obtain ⟨start, cases⟩ := step.counts
  rw [hasRoom_eq_true_iff] at cases
  refine ⟨by omega, ?_⟩
  rw [start]
  omega

/-- **Any number of operations** keep an array indexed, from the same index on. -/
theorem indexed_of_steps (steps : Relation.ReflTransGen Step s t) (indexed : s.Indexed) :
    t.Indexed ∧ t.start = s.start := by
  induction steps with
  | refl => exact ⟨indexed, rfl⟩
  | tail _ step ih => exact ⟨step.indexed ih.1, step.counts.1.trans ih.2⟩

/-! ## The last index -/

theorem Indexed.toInt_finish (indexed : s.Indexed) :
    s.finish.toInt = max Integer.least (s.start.toInt + s.length - 1) := by
  have room := indexed.room
  unfold finish Integer.saturate
  split
  next low => rw [Integer.toInt_ofInt_of_mem (Int.le_refl _) (by decide), max_eq_left low.le]
  next high =>
    rw [if_neg (by omega), Integer.toInt_ofInt_of_mem (by omega) room, max_eq_right (by omega)]

/-- The last index is exact, but for an array without elements that starts at the least integer. -/
theorem Indexed.finish_exact_iff (indexed : s.Indexed) :
    s.finish.toInt = s.start.toInt + s.length - 1 ↔
      ¬ (s.length = 0 ∧ s.start.toInt = Integer.least) := by
  have least := Integer.least_le_toInt s.start
  rw [indexed.toInt_finish]
  omega

end Sequence

/-! ## Arrays -/

/-- What an array with contents `r` that are indexed is good for: its elements are under their
indices, and additions and insertions go where they should or change nothing. -/
structure Heap.Indexes (h : Heap) (a : Handle) (r : Sequence Handle) : Prop where
  element : ∀ (o : Nat) (inside : o < r.items.length),
    ∃ i : Integer, i.toInt = r.start.toInt + o ∧ HeapM.elementAt a i h = .ok r.items[o] h
  finish : r.finish.toInt = r.start.toInt + r.length - 1 ↔
    ¬ (r.length = 0 ∧ r.start.toInt = Integer.least)
  slot : ∀ v i, (r.added v).items[i]? = if i = r.filled then some v else r.items[i]?
  added : ∀ v, h.isLocked a = false ∧ ¬ h.Reaches v a ∧
    HeapM.checkElement r.element (h.kind v) = .ok () ∧ r.start.toInt + r.filled ≤ Integer.greatest →
    HeapM.add a v h = .ok () (h.setCell a ⟨.array (r.added v), false⟩)
  notAdded : ∀ v,
    ¬ (h.isLocked a = false ∧ ¬ h.Reaches v a ∧ HeapM.checkElement r.element (h.kind v) = .ok () ∧
      r.start.toInt + r.filled ≤ Integer.greatest) → ∃ f, HeapM.add a v h = .error f h
  inserted : ∀ v p, h.isLocked a = false ∧ ¬ h.Reaches v a ∧ r.Accepts p →
    HeapM.insertAt a v p h = .ok () (h.setCell a ⟨.array (r.inserted (r.offset p).toNat v), false⟩)
  notInserted : ∀ v p, ¬ (h.isLocked a = false ∧ ¬ h.Reaches v a ∧ r.Accepts p) →
    ∃ f, HeapM.insertAt a v p h = .error f h

namespace HeapM

variable {h : Heap} {a v : Handle} {r : Sequence Handle} {p : Integer}

/-- An insertion into an array that is not locked, of a value that does not contain it. -/
theorem insertAt_array (held : h.data a = .array r) (unlocked : h.isLocked a = false)
    (apart : ¬ h.Reaches v a) :
    insertAt a v p h = (do write a (.array (← of (r.insert p v)))) h := by
  apply (bind_of_ok (rejectCycle_of_not_reaches apart) _).trans
  rw [bind_of_ok (writable_of_unlocked unlocked), held]

theorem insertAt_of_not_accepts (held : h.data a = .array r)
    (refuses : ¬ (h.isLocked a = false ∧ ¬ h.Reaches v a ∧ r.Accepts p)) :
    ∃ f, insertAt a v p h = .error f h := by
  cases locked : h.isLocked a with
  | true =>
    obtain ⟨f, run, -⟩ := Mutation.refused locked (.insertAt v p)
    exact ⟨f, run⟩
  | false =>
    by_cases reach : h.Reaches v a
    · exact ⟨_, bind_of_error (rejectCycle_of_reaches reach) _⟩
    · obtain ⟨f, refused⟩ :=
        Sequence.insert_of_not_accepts (v := v) fun accepts => refuses ⟨locked, reach, accepts⟩
      rw [insertAt_array held locked reach, refused]
      exact ⟨f, rfl⟩

theorem add_of_not_accepts (held : h.data a = .array r) (indexed : r.Indexed)
    (refuses : ¬ (h.isLocked a = false ∧ ¬ h.Reaches v a ∧
      checkElement r.element (h.kind v) = .ok () ∧ r.start.toInt + r.filled ≤ Integer.greatest)) :
    ∃ f, add a v h = .error f h := by
  cases locked : h.isLocked a with
  | true =>
    obtain ⟨f, run, -⟩ := Mutation.refused locked (.add v)
    exact ⟨f, run⟩
  | false =>
    by_cases reach : h.Reaches v a
    · have contents : dataOf a h = .ok (.array r) h := by simp only [dataOf, look, held]
      exact ⟨_, (bind_of_ok contents _).trans (bind_of_error (rejectCycle_of_reaches reach) _)⟩
    · rw [add_array held locked reach]
      cases check : checkElement r.element (h.kind v) with
      | error f => exact ⟨f, bind_of_error rfl _⟩
      | ok _ =>
        have full : Integer.greatest < r.start.toInt + r.filled := by
          by_contra room
          exact refuses ⟨locked, reach, check, by omega⟩
        obtain ⟨f, refused⟩ := indexed.push_of_full (v := v) full
        rw [refused]
        exact ⟨f, rfl⟩

/-- **What indexed contents are good for.** -/
theorem indexes_of_indexed (held : h.data a = .array r) (indexed : r.Indexed) : h.Indexes a r where
  element o inside := by
    have room := indexed.room
    have least := Integer.least_le_toInt r.start
    have place : (Int64.ofInt (r.start.toInt + o)).toInt = r.start.toInt + o := by
      rw [Sequence.length] at room
      exact Integer.toInt_ofInt_of_mem (by omega) (by omega)
    exact ⟨_, place, elementAt_of_getElem? held (List.getElem?_eq_getElem inside) place⟩
  finish := indexed.finish_exact_iff
  slot := indexed.getElem?_added
  added := by
    rintro v ⟨unlocked, apart, check, room⟩
    rw [add_array held unlocked apart, check]
    exact store_of_ok (indexed.push_of_room room) unlocked
  notAdded v := add_of_not_accepts held indexed
  inserted := by
    rintro v p ⟨unlocked, apart, accepts⟩
    rw [insertAt_array held unlocked apart]
    exact store_of_ok (Sequence.insert_of_accepts accepts) unlocked
  notInserted v p := insertAt_of_not_accepts held

end HeapM

/-! ## Lines -/

namespace Host

variable {s t : Host} {a b x y : Handle} {h : Heap} {m : HeapM Handle} {q : Sequence Handle}

/-- The arrays that come of the array `a` in `s`: the array itself, whatever has happened since, and
what is in its place in a copy of a value that it is somewhere in, which may be the array alone.
Copies leave the array in its line, too. -/
inductive Line (s : Host) (a : Handle) : Host → Handle → Prop where
  | self : Line s a s a
  | later {t u : Host} {b : Handle} (line : Line s a t b) (step : Step (fun _ => True) t u) :
    Line s a u b
  | source {t : Host} {b x y : Handle} {m : HeapM Handle} {h : Heap} (line : Line s a t b)
    (made : t.heap.Made x)
    (copies : HeapM.Copies x m) (run : m t.heap = .ok y h) : Line s a { t with heap := h } b
  | copy {t : Host} {b c x y : Handle} {m : HeapM Handle} {h : Heap} {path : List Nat}
    (line : Line s a t b)
    (copies : HeapM.Copies x m) (run : m t.heap = .ok y h) (place : t.heap.follow x path = some b)
    (copied : h.follow y path = some c) : Line s a { t with heap := h } c

/-- What is kept along a line: the array is one with the same first index, and indexed. -/
structure Upholds (q : Sequence Handle) (t : Host) (b : Handle) : Prop where
  owning : t.Owning False fun _ => True
  tidy : t.Tidy False
  array : ∃ r, t.heap.data b = .array r ∧ r.Indexed ∧ r.start = q.start

/-- Whatever lasts in the heap of a host, its arrays stay indexed. -/
theorem Upholds.endures {u : Host} (upholds : Upholds q t b) (owning : u.Owning False fun _ => True)
    (tidy : u.Tidy False) (gone : (Heap.lasting False).goes t.heap u.heap) : Upholds q u b := by
  obtain ⟨r, held, indexed, start⟩ := upholds.array
  obtain ⟨r', held, steps⟩ := (gone b).array r held
  obtain ⟨indexed, same⟩ := Sequence.indexed_of_steps steps indexed
  exact ⟨owning, tidy, r', held, indexed, same.trans start⟩

/-- Copying leaves arrays indexed. -/
theorem Upholds.copying (upholds : Upholds q t b) (made : t.heap.Made x) (copies : HeapM.Copies x m)
    (run : m t.heap = .ok y h) : Upholds q { t with heap := h } b := by
  have lasting := copies.lasting
  have whole : HostM.onHeap m t = .ok y { t with heap := h } := by simp only [HostM.onHeap, run]
  have owning :=
    ((leads_onHeap copies.sound upholds.owning (by simpa using ⟨made, trivial⟩)).ok whole).1
  obtain ⟨tidy, gone, -⟩ := (tidy_onHeap m upholds.tidy).ok whole
  exact upholds.endures owning tidy gone.1

/-- **Along a line** arrays stay indexed. -/
theorem Line.upholds (line : Line s a t b) (first : Upholds q s a) : Upholds q t b := by
  induction line with
  | self => exact first
  | later _ step ih =>
    obtain ⟨tidy, gone⟩ := step.endures ih.tidy
    exact ih.endures (step.owning ih.owning).1 tidy gone
  | source _ made copies run ih => exact ih.copying made copies run
  | @copy t b c x y m h path _ copies run place copied ih =>
    obtain ⟨r, held, indexed, start⟩ := ih.array
    -- an array is somewhere in what is copied, so it exists, as copying asks of it
    have made : t.heap.Made x :=
      Heap.made_of_follow place (Heap.made_of_kind (by rw [Heap.kind, held]; nofun))
    have after := ih.copying made copies run
    have formed := ih.owning.realm.formed
    have formed' : h.WellFormed := after.owning.realm.formed
    have alike := (copies.alike formed formed' made run).follow formed formed' place copied
    obtain ⟨r', there, same, length, filled⟩ := alike.array formed formed' held
    exact ⟨after.owning, after.tidy, r', there, indexed.congr same length filled, same.trans start⟩

/-- **Every element keeps an index.** An array is created with an index for its last element. Then
whatever happens, and whatever copies are made, this array and those that come of it have an index
for their last element, and no more slots are taken than there are. An addition goes to position
`filled`, where a slot is or the next element would be, if there is an index for it, and is refused
otherwise. Every element is read under its index. The last index is exact, but for an array without
elements at the least integer. An insertion is accepted from the first index up to the one behind
the last element, if there is one, and moves what is from there on. -/
theorem line_indexed (reachable : s.Reachable) (held : s.heap.data a = .array q)
    (created : q.Created) (room : q.start.toInt + q.length - 1 ≤ Integer.greatest)
    (line : Line s a t b) :
    ∃ r, t.heap.data b = .array r ∧ r.start = q.start ∧ r.filled ≤ r.length ∧
      r.start.toInt + r.length - 1 ≤ Integer.greatest ∧ t.heap.Indexes b r := by
  have first : Upholds q s a :=
    ⟨reachable.owning, reachable.tidy, q, held, created.indexed room, rfl⟩
  obtain ⟨r, there, indexed, start⟩ := (line.upholds first).array
  exact ⟨r, there, start, indexed.filled_le, indexed.room, HeapM.indexes_of_indexed there indexed⟩

/-- Two elements up to the greatest integer. There is no index for a third one, whose addition
fails. A copy that is made then is an array of the line, and what holds of all of them holds of
it. -/
theorem line_indexed_greatest :
    let s := Session.after (.bare .default)
      [.hold "two" (.array 9223372036854775806 [.literal (.integer 1),
        .literal (.integer 2)] .refuse)]
    let t := endState ((Expr.binary .add (.held "two") (.literal (.integer 3))).eval (.free 9)) s
    s.heap.parts ⟨2⟩ = [⟨0⟩, ⟨1⟩] ∧ t.heap.parts ⟨2⟩ = [⟨0⟩, ⟨1⟩] ∧
      ∃ c h r, HeapM.copy ⟨2⟩ t.heap = .ok c h ∧ h.data c = .array r ∧
      r.start = 9223372036854775806 ∧ r.filled ≤ r.length ∧
      r.start.toInt + r.length - 1 ≤ Integer.greatest ∧ h.Indexes c r := by
  intro s t
  have reachable : s.Reachable := reachable_after ⟨.default, true, [], none⟩ _
  have held : s.heap.data ⟨2⟩ = .array (.ofItems 9223372036854775806 [⟨0⟩, ⟨1⟩] .refuse) := rfl
  refine ⟨rfl, rfl, ?_⟩
  have tried : Step (fun _ => True) s t := .evaluate _ _
  clear_value s t
  have created : (Sequence.ofItems 9223372036854775806 [(⟨0⟩ : Handle), ⟨1⟩] .refuse).Created :=
    .ofItems _ _ _
  have later : Line s ⟨2⟩ t ⟨2⟩ := .later .self tried
  obtain ⟨_, there, -⟩ := line_indexed reachable held created (by decide) later
  have made : t.heap.Made ⟨2⟩ := Heap.made_of_kind (by rw [Heap.kind, there]; nofun)
  obtain ⟨c, h, run, -⟩ := Heap.yields_copy (tried.owning reachable.owning).1.realm made
  have place : t.heap.follow ⟨2⟩ [] = some ⟨2⟩ := rfl
  have copied : h.follow c [] = some c := rfl
  obtain ⟨r, kept⟩ :=
    line_indexed reachable held created (by decide) (.copy later .copy run place copied)
  exact ⟨c, h, r, run, kept⟩

end Host

end ScriptHost
