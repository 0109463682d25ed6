import ScriptHost.Proofs.Heap.Lasting
import ScriptHost.Proofs.Host.Cloning

/-!
# Values that are alike

Two values are alike if they look the same once all locks are taken off (`Heap.Alike`). Then so are
their parts in the same places, and the parts of these, as far down as they go (`Alike.follow`); and
if the one is an array, the other one is an array with as many elements under the same indices, of
which as many slots are taken (`Alike.array`).

Every operation that makes a copy of a value makes one that is alike, whether the copy shares the
parts of the value or has parts of its own, and whether it keeps the locks or not
(`HeapM.Copies.alike`).
-/

set_option autoImplicit false

namespace ScriptHost

/-! ## Images without locks -/

namespace Image

mutual

/-- There are no locks to take off a second time. -/
theorem unlocked_unlocked : (i : Image) → i.unlocked.unlocked = i.unlocked
  | .node _ (.leaf _) => rfl
  | .node _ (.array ⟨_, items, _, _, _⟩) => by simp only [unlocked, unlockedItems_twice items]
  | .node _ (.dictionary ⟨entries⟩) => by simp only [unlocked, unlockedEntries_twice entries]
  | .node _ (.record ⟨_, members⟩) => by simp only [unlocked, unlockedMembers_twice members]

theorem unlockedItems_twice :
    (is : List Image) → unlockedItems (unlockedItems is) = unlockedItems is
  | [] => rfl
  | i :: is => by simp only [unlockedItems, unlocked_unlocked i, unlockedItems_twice is]

theorem unlockedEntries_twice :
    (es : List (Key × Image)) → unlockedEntries (unlockedEntries es) = unlockedEntries es
  | [] => rfl
  | (_, i) :: es => by simp only [unlockedEntries, unlocked_unlocked i, unlockedEntries_twice es]

theorem unlockedMembers_twice :
    (ms : List (String × Image)) → unlockedMembers (unlockedMembers ms) = unlockedMembers ms
  | [] => rfl
  | (_, i) :: ms => by simp only [unlockedMembers, unlocked_unlocked i, unlockedMembers_twice ms]

end

theorem unlocked_withLocks (keep : Bool) (i : Image) :
    (i.withLocks keep).unlocked = i.unlocked := by
  cases keep with
  | true => rfl
  | false => exact unlocked_unlocked i

end Image

namespace Heap

open Course

variable {h h' : Heap} {v w : Handle}

/-- A value and one of another heap that look the same once all locks are taken off. -/
def Alike (h : Heap) (v : Handle) (h' : Heap) (w : Handle) : Prop :=
  (h.image v).unlocked = (h'.image w).unlocked

/-- A value by its place in another one: the position of a part, the position of a part of that one,
and so on. -/
def follow (h : Heap) (v : Handle) : List Nat → Option Handle
  | [] => some v
  | i :: path => ((h.parts v)[i]?).bind fun p => h.follow p path

/-- Values are alike if their contents differ in parts that are alike. -/
theorem alike_iff (formed : h.WellFormed) (formed' : h'.WellFormed) :
    h.Alike v h' w ↔
    (h.data v).map (fun p => (h.image p).unlocked) = (h'.data w).map fun p =>
      (h'.image p).unlocked := by
  rw [Alike, formed.image_eq v, formed'.image_eq w, Image.unlocked_node, Image.unlocked_node,
    Data.map_map, Data.map_map]
  constructor
  · intro same
    injection same
  · intro same
    rw [same]

theorem Alike.part (alike : h.Alike v h' w) (formed : h.WellFormed) (formed' : h'.WellFormed)
    {i : Nat} {p q : Handle} (first : (h.parts v)[i]? = some p)
    (second : (h'.parts w)[i]? = some q) : h.Alike p h' q := by
  have parts := congrArg (fun d => d.parts[i]?) ((alike_iff formed formed').mp alike)
  rw [Heap.parts] at first second
  simp only [Data.parts_map, List.getElem?_map, first, second, Option.map_some] at parts
  exact Option.some.inj parts

/-- **All the way down**, what is in the same place is alike. -/
theorem Alike.follow {path : List Nat} {p q : Handle} (alike : h.Alike v h' w)
    (formed : h.WellFormed) (formed' : h'.WellFormed) (first : h.follow v path = some p)
    (second : h'.follow w path = some q) : h.Alike p h' q := by
  induction path generalizing v w with
  | nil =>
    cases first
    cases second
    exact alike
  | cons i path ih =>
    obtain ⟨u, one, first⟩ := Option.bind_eq_some_iff.mp first
    obtain ⟨x, two, second⟩ := Option.bind_eq_some_iff.mp second
    exact ih (alike.part formed formed' one two) first second

/-- What is alike to an array is an array with the same indices and slots. -/
theorem Alike.array {s : Sequence Handle} (alike : h.Alike v h' w) (formed : h.WellFormed)
    (formed' : h'.WellFormed) (held : h.data v = .array s) :
    ∃ t, h'.data w = .array t ∧ t.start = s.start ∧ t.length = s.length ∧ t.filled = s.filled := by
  have same := (alike_iff formed formed').mp alike
  rw [held] at same
  cases there : h'.data w with
  | array t =>
    rw [there] at same
    injection same with same
    have lengths : s.length = t.length := by
      simpa [Sequence.map, Sequence.length] using congrArg Sequence.length same
    exact ⟨t, rfl, (congrArg (fun q => q.start) same).symm, lengths.symm,
      (congrArg (fun q => q.filled) same).symm⟩
  | _ =>
    rw [there] at same
    cases same

/-- What has something that exists in some place exists. -/
theorem made_of_follow {path : List Nat} {p : Handle} (there : h.follow v path = some p)
    (made : h.Made p) : h.Made v := by
  cases path with
  | nil =>
    cases there
    exact made
  | cons i path =>
    obtain ⟨u, part, -⟩ := Option.bind_eq_some_iff.mp there
    exact made_of_part (List.mem_of_getElem? part)

/-- A new cell with the contents of a value is alike. -/
theorem alike_push (formed : h.WellFormed) (locked : Bool)
    (formed' : (h.push ⟨h.data v, locked⟩).WellFormed) :
    h.Alike v (h.push ⟨h.data v, locked⟩) ⟨h.size⟩ := by
  refine (alike_iff formed formed').mpr ?_
  have contents : (h.push ⟨h.data v, locked⟩).data ⟨h.size⟩ = h.data v := by
    rw [data, cell_push_new]
  rw [contents]
  -- the parts are shared, and no cell of theirs has changed
  refine Data.map_congr fun p part => ?_
  rw [(extends_push h _).image formed (formed.parts v p part)]

end Heap

/-! ## Copies -/

namespace HeapM

open Heap

variable {h h' : Heap} {v c : Handle} {m : HeapM Handle}

/-- The operations that make a copy of a value. -/
inductive Copies (v : Handle) : HeapM Handle → Prop where
  | copy : Copies v (copy v)
  | duplicate (kind : CloneKind) : Copies v (duplicate kind v)
  | cloneWith (kind : CloneKind) : Copies v (cloneWith kind v)

theorem Copies.sound (copies : Copies v m) : m.Sound [v] fun c => [c] := by
  cases copies with
  | copy => exact sound_copy
  | duplicate kind => exact sound_duplicate
  | cloneWith kind => exact sound_cloneWith

theorem Copies.lasting (copies : Copies v m) : m.Lasting := by
  cases copies <;> infer_instance

/-- A copy of all parts. -/
theorem alike_copyTo {keep : Bool} (formed : h.WellFormed) (made : h.Made v)
    (run : copyTo keep h.levels v h = .ok c h') : h.Alike v h' c := by
  have region : h.Realm False fun _ => True := { formed.region with homogeneous := False.elim }
  obtain ⟨d, t, same, state, -, copy⟩ :=
    Heap.yields_copyTo (.start region keep) made (formed.endsIn v)
  rw [run] at same
  cases same
  rw [Alike, copy.image_eq state.region.formed, Image.unlocked_withLocks]

/-- **A copy** is alike to what it is a copy of. -/
theorem Copies.alike (copies : Copies v m) (formed : h.WellFormed) (formed' : h'.WellFormed)
    (made : h.Made v) (run : m h = .ok c h') : h.Alike v h' c := by
  have shared : ∀ locked,
      (.ok ⟨h.size⟩ (h.push ⟨h.data v, locked⟩) : EStateM.Result Fault Heap Handle) = .ok c h' →
      h.Alike v h' c := by
    intro locked same
    cases same
    exact alike_push formed locked formed'
  cases copies with
  | copy => exact alike_copyTo formed made run
  | duplicate kind =>
    cases kind with
    | deep => exact alike_copyTo formed made run
    | minimal | shallow => exact shared false run
  | cloneWith kind =>
    cases kind with
    | deep => exact alike_copyTo formed made run
    | minimal | shallow => exact shared (h.isLocked v) run

end HeapM

end ScriptHost
