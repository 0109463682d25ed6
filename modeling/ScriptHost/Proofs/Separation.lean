import ScriptHost.Proofs.Host.Run

/-!
# Copies are separate

A copy shares nothing with what was there before: `Host.copy_separate`. Making it changes no cell;
everything that can be reached from it is new and unlocked; it looks like its source with all locks
taken off. And the two stay apart. As long as operations are given only what can be reached from the
copy, or what they make themselves, nothing that was there before the copy changes. Whatever has
happened in between, operations that are given only what was there before the copy, or what they
make themselves, change nothing that cannot be reached from there.

Both follow from one fact about operations, `Operation.leads`: an operation keeps to any region of
the heap that holds the values it is given.
-/

set_option autoImplicit false

namespace ScriptHost

open HostM Course

/-! ## Operations -/

/-- An operation on values, with the values that it is given. -/
inductive Operation where
  | literal (l : Literal)
  | unary (op : Unary) (v : Handle)
  | binary (op : Binary) (a b : Handle)
  | insertKey (target key v : Handle)
  | setElements (target : Handle) (vs : List Handle)
  | array (start : Integer) (vs : List Handle) (policy : RangePolicy)
  | dictionary
  | record (members : List (String × Handle))
  | function (name : String) (params : List Param) (body : List Expr)

namespace Operation

/-- The values that an operation is given. -/
def given : Operation → List Handle
  | .literal _ | .dictionary | .function _ _ _ => []
  | .unary _ v => [v]
  | .binary _ a b => [a, b]
  | .insertKey target key v => [target, key, v]
  | .setElements target vs => target :: vs
  | .array _ vs _ => vs
  | .record members => members.map (·.2)

/-- Carries out an operation. -/
def perform : Operation → HostM Yield
  | .literal l => heapValue l.make
  | .unary op v => op.perform v
  | .binary op a b => op.perform a b
  | .insertKey target key v => heapEffect (HeapM.insertKey target key v)
  | .setElements target vs => heapEffect (HeapM.setElements target vs)
  | .array start vs policy => heapValue (HeapM.new (.array (.ofItems start vs policy)))
  | .dictionary => heapValue (HeapM.new (.dictionary .empty))
  | .record members => heapValue (HeapM.new (.record (.ofMembers members)))
  | .function name params body => heapValue (HeapM.newFunction name params (.script body))

end Operation

namespace Host

/-- All of a host but its heap. -/
def shell (s : Host) : Host := { s with heap := .empty }

/-- Hosts whose heap is a region, whatever else they hold on to; all else stays as it is. -/
def holding (P : Handle → Prop) : Regime where
  course :=
    { holds := fun s => s.heap.Realm False P
      goes := fun s t => Heap.Changes P s.heap t.heap ∧ t.shell = s.shell
      refl := fun _ => ⟨.refl, rfl⟩
      trans := fun first second => ⟨first.1.trans second.1, second.2.trans first.2⟩ }
  uses s v := s.heap.Owned P v

theorem holding_lawful (P : Handle → Prop) : (holding P).HeapLawful where
  lasts owned gone := owned.changes gone.1
  heap sound region used :=
    Leads.onHeap (sound P _ region used) fun _ region gone => ⟨region, gone, rfl⟩

end Host

/-- **Operations** keep to a region that holds what they are given. -/
theorem Operation.leads {P : Handle → Prop} {s : Host} (op : Operation)
    (held : s.heap.Realm False P) (used : ∀ v ∈ op.given, s.heap.Owned P v) :
    (Host.holding P).course.Leads op.perform s fun y t => y.All (t.heap.Owned P) := by
  have law := Host.holding_lawful P
  have overHeap : ∀ {m : HeapM Unit}, (Heap.course False P).Leads m s.heap (fun _ _ => True) →
      (Host.holding P).course.Leads (onHeap m) s fun _ _ => True :=
    fun leads => Leads.onHeap leads fun _ region gone => ⟨region, gone, rfl⟩
  cases op with
  | literal l => exact law.leads_heapValue (Heap.sound_make l) held (by simp)
  | unary op v => exact law.leads_unary op held (used v (by simp [given]))
  | binary op a b =>
    have first := used a (by simp [given])
    have second := used b (by simp [given])
    exact law.leads_binary op held first second
      (fun _ => overHeap (Heap.leads_assign held first second))
      fun position _ => overHeap (Heap.leads_insertAt held first second False.elim)
  | insertKey target key v => exact law.leads_heapEffect Heap.sound_insertKey held used
  | setElements target vs =>
    have taken : ∀ v ∈ vs, s.heap.Owned P v := fun v mem => used v (by simp [given, mem])
    exact Regime.leads_effect
      (overHeap (Heap.leads_setElements held (used target (by simp [given])) taken False.elim))
  | array start vs policy =>
    exact law.leads_heapValue (Heap.sound_new Data.fits_array rfl) held used
  | dictionary =>
    refine law.leads_heapValue (Heap.sound_new Data.fits_dictionary rfl) held ?_
    simp [Data.parts, Dictionary.values, Dictionary.empty]
  | record members =>
    exact law.leads_heapValue (Heap.sound_new Data.fits_record rfl) held
      fun v mem => used v (Record.mem_ofMembers mem)
  | function name params body => exact law.leads_heapValue Heap.sound_newFunction held (by simp)

namespace Host

/-- Any number of operations, each of which is given values that exist and that are allowed in the
heap it finds. -/
abbrev Operates (allowed : Heap → Handle → Prop) : Host → Host → Prop :=
  Relation.ReflTransGen fun s t => ∃ op : Operation,
    (∀ v ∈ op.given, s.heap.Made v ∧ allowed s.heap v) ∧ t = endState op.perform s

/-- **Operations keep to a region** that holds all they are given. -/
theorem Operates.changes {allowed : Heap → Handle → Prop} {P : Handle → Prop} {s t : Host}
    (operates : Operates allowed s t) (region : s.heap.Region P)
    (inside : ∀ h : Heap, h.Region P → ∀ v, allowed h v → P v) :
    t.heap.Region P ∧ Heap.Changes P s.heap t.heap := by
  induction operates with
  | refl => exact ⟨region, .refl⟩
  | tail _ step ih =>
    obtain ⟨op, given, rfl⟩ := step
    obtain ⟨now, before⟩ := ih
    have leads := op.leads now.realm fun v mem => ⟨(given v mem).1, inside _ now v (given v mem).2⟩
    exact ⟨leads.atEnd.1.toRegion, before.trans leads.atEnd.2.1⟩

/-! ## Copies -/

section Copies

variable {s t u x : Host} {v c : Handle}

/-- Making a copy: the heap grows by cells that hold only one another. -/
theorem run_copy (owning : s.Owning False fun _ => True) (made : s.heap.Made v) :
    ∃ c t, onHeap (HeapM.copy v) s = .ok c t ∧ t.Owning False (fun _ => True) ∧
      s.heap.Extends t.heap ∧ t.heap.Region (fun w => ¬ s.heap.Made w) ∧
      (∀ w, ¬ s.heap.Made w → t.heap.Made w → t.heap.isLocked w = false) ∧
      Heap.CopyOf false s.heap.size s.heap.levels s.heap v c t.heap := by
  obtain ⟨c, h, run, state, ⟨changes, ext⟩, copy⟩ := Heap.yields_copy owning.realm made
  have whole : onHeap (HeapM.copy v) s = .ok c { s with heap := h } := by simp only [onHeap, run]
  have after := (leads_onHeap Heap.sound_copy owning (by simpa using ⟨made, trivial⟩)).ok whole
  refine ⟨c, _, whole, after.1, ext, ⟨state.region.formed, ?_, ?_⟩, ?_, copy⟩
  · exact fun w no made => no (ext.made made)
  · exact fun w new p part => Nat.not_lt.mpr (state.closed w (Nat.not_lt.mp new) p part)
  · exact fun w new made => state.unlocked rfl w (Nat.not_lt.mp new) made

/-- A copy looks like its source without locks. -/
theorem image_copy {h h' : Heap} {base : Nat} (copy : Heap.CopyOf false base h.levels h v c h')
    (formed : h'.WellFormed) : h'.image c = (h.image v).unlocked :=
  copy.image_eq formed

/-- Operations on a part of the heap that is new leave alone what is old. -/
theorem cell_of_operates_new (ext : s.heap.Extends t.heap)
    (region : t.heap.Region fun w => ¬ s.heap.Made w) (new : ¬ s.heap.Made c)
    (operates : Operates (fun h a => h.Reaches c a ∨ ¬ t.heap.Made a) t u) {w : Handle}
    (old : s.heap.Made w) : u.heap.cell w = s.heap.cell w := by
  have inside : ∀ h : Heap, h.Region (fun w => ¬ s.heap.Made w) → ∀ a, h.Reaches c a ∨
      ¬ t.heap.Made a → ¬ s.heap.Made a := by
    intro h now a allowed
    obtain reach | fresh := allowed
    · exact reach.closed now.closed new
    · exact fun made => fresh (ext.made made)
  obtain ⟨_, changes⟩ := operates.changes region inside
  exact (changes.cell_of_not_owned region.fresh (not_not_intro old)).trans (ext.cell w old)

/-- Operations on what is old, and on what they make, leave alone what cannot be reached from
there. -/
theorem cell_of_operates_old (formed : u.heap.WellFormed)
    (operates : Operates (fun _ a => s.heap.Made a ∨ ¬ u.heap.Made a) u x) {w : Handle}
    (made : u.heap.Made w) (only : ∀ a, s.heap.Made a → ¬ u.heap.Reaches a w) :
    x.heap.cell w = u.heap.cell w := by
  let P : Handle → Prop := fun w => (∃ a, s.heap.Made a ∧ u.heap.Reaches a w) ∨ ¬ u.heap.Made w
  have region : u.heap.Region P := by
    refine ⟨formed, fun w no => .inr no, fun w owned p part => ?_⟩
    obtain ⟨a, old, reach⟩ | no := owned
    · exact .inl ⟨a, old, reach.trans (.step part (.refl p))⟩
    · exact absurd (Heap.made_of_part part) no
  have inside : ∀ h : Heap, h.Region P → ∀ a, s.heap.Made a ∨ ¬ u.heap.Made a → P a :=
    fun _ _ a allowed => allowed.imp_left fun old => ⟨a, old, .refl a⟩
  obtain ⟨_, changes⟩ := operates.changes region inside
  refine changes.cell_of_not_owned region.fresh ?_
  rintro (⟨a, old, reach⟩ | no)
  · exact only a old reach
  · exact no made

/-- **Copies are separate.** In every reachable state a value that exists can be copied. The copy
changes no cell; what it reaches is new and unlocked; its image is that of its source with all locks
taken off. Operations on what is reached from the copy, and on what they make, change nothing that
was there before; and in every later state, operations on what was there before, and on what they
make, change nothing that is not reached from there. -/
theorem copy_separate (reachable : s.Reachable) (made : s.heap.Made v) :
    ∃ c t, onHeap (HeapM.copy v) s = .ok c t ∧
      (∀ w, s.heap.Made w → t.heap.cell w = s.heap.cell w) ∧
      (∀ w, t.heap.Reaches c w → t.heap.Made w ∧ ¬ s.heap.Made w ∧ t.heap.isLocked w = false) ∧
      t.heap.image c = (s.heap.image v).unlocked ∧
      (∀ u, Operates (fun h a => h.Reaches c a ∨ ¬ t.heap.Made a) t u →
        ∀ w, s.heap.Made w → u.heap.cell w = s.heap.cell w) ∧
      (∀ w, t.heap.Reaches c w → ∀ a, s.heap.Made a → ¬ t.heap.Reaches a w) ∧
      (∀ u x, Run (fun _ => True) t u → Operates (fun _ a => s.heap.Made a ∨ ¬ u.heap.Made a) u x →
        ∀ w, u.heap.Made w → (∀ a, s.heap.Made a → ¬ u.heap.Reaches a w) →
        x.heap.cell w = u.heap.cell w) := by
  have formed := reachable.wellFormed
  obtain ⟨c, t, run, after, ext, region, unlocked, copy⟩ := run_copy reachable.owning made
  have fresh : ∀ w, t.heap.Reaches c w → ¬ s.heap.Made w := fun w reach =>
    reach.closed region.closed (Nat.not_lt.mpr copy.new)
  refine ⟨c, t, run, ext.cell, fun w reach => ?_, image_copy copy region.formed, ?_, ?_, ?_⟩
  · have there := region.formed.made_of_reaches reach copy.made
    exact ⟨there, fresh w reach, unlocked w (fresh w reach) there⟩
  · exact fun u operates w old => cell_of_operates_new ext region (fresh c (.refl c)) operates old
  · intro w reach a old back
    have still := formed.reaches_of_extends ext back old
    exact fresh w reach (formed.made_of_reaches still old)
  · intro u x later operates w there only
    exact cell_of_operates_old (later.owning after).1.region.formed operates there only

/-- A copy of a locked list of lists, which is then locked again: the cells from before are as they
were. -/
theorem copy_separate_list :
    let list := Expr.array 1 [.array 1 [.literal (.integer 5)] .refuse] .refuse
    let s := Session.after (.bare .default) [.hold "list" (.unary .locked list)]
    s.heap.isLocked ⟨2⟩ = true ∧ ∃ c t, onHeap (HeapM.copy ⟨2⟩) s = .ok c t ∧
      t.heap.isLocked c = false ∧ t.heap.image c = (s.heap.image ⟨2⟩).unlocked ∧
      ∀ w, s.heap.Made w →
      (endState (Operation.unary .lock c).perform t).heap.cell w = s.heap.cell w := by
  intro list s
  have reachable : s.Reachable := reachable_after ⟨.default, true, [], none⟩ _
  have made : s.heap.Made ⟨2⟩ := by decide +kernel
  obtain ⟨c, t, run, _, fresh, image, after, _⟩ := copy_separate reachable made
  obtain ⟨there, _, unlocked⟩ := fresh c (.refl c)
  refine ⟨by decide +kernel, c, t, run, unlocked, image, after _ (.single ⟨_, ?_, rfl⟩)⟩
  simpa [Operation.given] using ⟨there, .inl (.refl c)⟩

end Copies

end Host

end ScriptHost
