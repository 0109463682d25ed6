import ScriptHost.Proofs.Heap.Depth
import ScriptHost.Proofs.Heap.Primitive
import ScriptHost.Proofs.Value.Contents

/-!
# Copies and locks

A copy is made of new cells alone. `Heap.leads_copyTo` follows the walk that makes it: it never
fails, the cells that were there stay as they are, all cells made on the way hold only cells made on
the way, and the copy has the image of its source, with the locks kept or all taken off. The
invariant is `Copying`, relative to the number of cells at which the outermost copy began, so that
the copies of parts are instances of it.

Locking changes nothing but locks (`Heap.Locks`): it locks a value and some of what it reaches, and
leaves no newly locked cell with an unlocked part. A locked cell ends the walk, and a cell is locked
before its parts are entered, so the cells still unlocked are a measure of the levels that are
needed.
-/

set_option autoImplicit false

namespace ScriptHost.Heap

open Course

variable {typed : Prop} {P : Handle → Prop} {h h' : Heap} {v : Handle}

/-! ## Copies -/

/-- The heap while copies are made, since it had `base` cells: what is new holds only what is
new. -/
structure Copying (typed : Prop) (P : Handle → Prop) (keep : Bool) (base : Nat) (h : Heap) :
    Prop where
  region : h.Realm typed P
  base_le : base ≤ h.size
  fresh : ∀ w, base ≤ w.index → P w
  closed : ∀ w, base ≤ w.index → ∀ p ∈ h.parts w, base ≤ p.index
  unlocked : keep = false → ∀ w, base ≤ w.index → h.Made w → h.isLocked w = false

/-- Before any copy is made, nothing is new. -/
theorem Copying.start (region : h.Realm typed P) (keep : Bool) : Copying typed P keep h.size h where
  region := region
  base_le := Nat.le_refl _
  fresh w new := region.fresh w (Nat.not_lt.mpr new)
  closed _ new _ part := absurd (made_of_part part) (Nat.not_lt.mpr new)
  unlocked _ _ new made := absurd made (Nat.not_lt.mpr new)

/-- The course of a heap while copies are made: no cell that is there changes. -/
def copying (typed : Prop) (P : Handle → Prop) (keep : Bool) (base : Nat) : Course Heap where
  holds := Copying typed P keep base
  goes h h' := Changes P h h' ∧ h.Extends h'
  refl h := ⟨.refl, .refl h⟩
  trans first second := ⟨first.1.trans second.1, first.2.trans second.2⟩

/-- In the heap `h'`, `c` is a copy of what `v` is in `h`. -/
structure CopyOf (keep : Bool) (base n : Nat) (h : Heap) (v c : Handle) (h' : Heap) : Prop where
  made : h'.Made c
  new : base ≤ c.index
  locked : h'.isLocked c = (keep && h.isLocked v)
  ends : h'.EndsIn n c
  image : h'.imageTo n c = (h.imageTo n v).withLocks keep

variable {keep : Bool} {base n : Nat}

/-- A copy stays one while more cells are made. -/
theorem CopyOf.extends {h h' h'' : Heap} {v c : Handle} (copy : CopyOf keep base n h v c h')
    (formed : h'.WellFormed) (ext : h'.Extends h'') : CopyOf keep base n h v c h'' where
  made := ext.made copy.made
  new := copy.new
  locked := (isLocked_congr (ext.cell c copy.made)).trans copy.locked
  ends := copy.ends.congr (fun u _ => formed.parts u)
    (fun u made => parts_congr (ext.cell u made)) copy.made
  image := (imageTo_congr (fun u _ => formed.parts u) ext.cell copy.made).trans copy.image

/-- A copy of a value as it is after more cells have been made is a copy of the value as it was. -/
theorem CopyOf.source {h t u : Heap} {v c : Handle} (copy : CopyOf keep base n t v c u)
    (formed : h.WellFormed) (ext : h.Extends t) (made : h.Made v) : CopyOf keep base n h v c u where
  made := copy.made
  new := copy.new
  locked := by rw [copy.locked, isLocked_congr (ext.cell v made)]
  ends := copy.ends
  image := by rw [copy.image, imageTo_congr (fun u _ => formed.parts u) ext.cell made]

/-- A copy down to all levels has the image of its source, with the locks kept or all taken off. -/
theorem CopyOf.image_eq {h h' : Heap} {v c : Handle} (copy : CopyOf keep base h.levels h v c h')
    (formed : h'.WellFormed) : h'.image c = (h.image v).withLocks keep := by
  have whole := imageTo_eq (formed.endsIn c) (Nat.le_max_right h.levels h'.levels)
  have level := imageTo_eq copy.ends (Nat.le_max_left h.levels h'.levels)
  exact whole.symm.trans (level.trans copy.image)

/-- A copy has the kind of its source. -/
theorem CopyOf.kind {h h' : Heap} {v c : Handle} (copy : CopyOf keep base n h v c h') :
    h'.kind c = h.kind v := by
  cases n with
  | zero => exact copy.ends.elim
  | succ n =>
    have kinds := congrArg Image.kind copy.image
    rw [imageTo, imageTo, Image.withLocks_node] at kinds
    simpa only [Heap.kind, Image.kind, Image.data, Data.kind_map] using kinds

/-- Making one more cell, whose parts are copies. -/
theorem yields_copyCell {c : Cell} (state : Copying typed P keep base h)
    (parts : h.OwnedParts P c.data) (new : ∀ p ∈ c.data.parts, base ≤ p.index)
    (sealed : c.locked = true → ∀ p ∈ c.data.parts, h.isLocked p = true) (fits : c.data.Fits)
    (kept : keep = false → c.locked = false) (admits : typed → c.data.Homogeneous h.kind) :
    (copying typed P keep base).Yields (HeapM.alloc c) h fun v h' => v = ⟨h.size⟩ ∧
      h' = h.push c := by
  have change : Change P h (h.push c) := .push c parts sealed fits
  have ext := extends_push h c
  refine ⟨⟨h.size⟩, h.push c, rfl, ?_, ⟨.single change, ext⟩, rfl, rfl⟩
  refine ⟨state.region.push change admits, Nat.le_trans state.base_le ext.size_le,
    state.fresh, ?_, ?_⟩
  · intro w newer p part
    obtain made | rfl := made_push.mp (made_of_part part)
    · exact state.closed w newer p (by rwa [parts_congr (ext.cell w made)] at part)
    · exact new p (by simpa [Heap.parts, data] using part)
  · intro off w newer made
    obtain made | rfl := made_push.mp made
    · rw [isLocked_congr (ext.cell w made)]
      exact state.unlocked off w newer made
    · simpa [isLocked] using kept off

/-- A copy has the bounds of what it is a copy of, and keeps them. -/
theorem fits_of_matches {R : Handle → Handle → Prop} {d e : Data Handle} (matched : d.Matches R e)
    (fits : d.Fits) : e.Fits := by
  intro i b same
  subst same
  exact fits i b matched.of_leaf

/-- **Copies are faithful.** Copying a value whose ways down end within the levels given yields a
copy of it. -/
theorem yields_copyTo (state : Copying typed P keep base h) (made : h.Made v)
    (ends : h.EndsIn n v) :
    (copying typed P keep base).Yields (HeapM.copyTo keep n v) h (CopyOf keep base n h v) := by
  induction n generalizing h v with
  | zero => exact ends.elim
  | succ n ih =>
    have formed := state.region.formed
    have copies := Data.mapM_yields (C := copying typed P keep base) (M := fun p q t =>
      CopyOf keep base n h p q t) (f := HeapM.copyTo keep n) (h.data v)
      (fun p q t u held copy gone => copy.extends held.region.formed gone.2) state
      fun p part t held gone => by
        have madePart := formed.parts v p part
        have endsPart : t.EndsIn n p :=
          (ends p part).congr (fun u _ => formed.parts u)
            (fun u made => parts_congr (gone.2.cell u made)) madePart
        exact (ih held (gone.2.made madePart) endsPart).weaken fun c u _ _ copy =>
          copy.source formed gone.2 madePart
    refine copies.bind fun d t held gone matched => ?_
    have copied : ∀ q ∈ d.parts, ∃ p ∈ h.parts v, CopyOf keep base n h p q t :=
      fun q part => matched.exists_part part
    have owned : t.OwnedParts P d := fun q part => by
      obtain ⟨p, _, copy⟩ := copied q part
      exact ⟨copy.made, held.fresh q copy.new⟩
    refine (yields_copyCell (c := ⟨d, keep && h.isLocked v⟩) held owned ?_ ?_ ?_ ?_ ?_).weaken ?_
    · intro q part
      obtain ⟨p, _, copy⟩ := copied q part
      exact copy.new
    · intro locked q part
      obtain ⟨p, inside, copy⟩ := copied q part
      have both : keep = true ∧ h.isLocked v = true := by simpa using locked
      rw [copy.locked, both.1, formed.sealed v both.2 p inside]
      rfl
    · exact fits_of_matches matched (formed.fits v)
    · intro off
      simp [off]
    · intro on
      exact matched.homogeneous (fun p q copy => copy.kind) (state.region.homogeneous on v)
    · rintro c u _ ⟨-, ext⟩ ⟨rfl, rfl⟩
      refine ⟨made_push.mpr (.inr rfl), held.base_le, by simp [isLocked], fun q part => ?_, ?_⟩
      · have inside : q ∈ d.parts := by simpa [Heap.parts, data] using part
        obtain ⟨p, _, copy⟩ := copied q inside
        exact (copy.extends held.region.formed ext).ends
      have parts : (h.data v).map (fun p => (h.imageTo n p).withLocks keep) = d.map (t.imageTo n) :=
        matched.map_eq fun p q copy => copy.image.symm
      have later : d.map ((t.push ⟨d, keep && h.isLocked v⟩).imageTo n) = d.map (t.imageTo n) :=
        Data.map_congr fun q part =>
          imageTo_congr (fun u _ => held.region.formed.parts u) ext.cell (owned q part).1
      rw [imageTo, imageTo, Image.withLocks_node, Data.map_map, parts, ← later]
      simp only [isLocked, data, cell_push_new]

/-- What is new reaches only what is new. -/
theorem Copying.new_of_reaches (state : Copying typed P keep base h) {p w : Handle}
    (reach : h.Reaches p w) (new : base ≤ p.index) : base ≤ w.index :=
  reach.closed (S := fun w => base ≤ w.index) state.closed new

/-- Making copies keeps to the course of the heap. -/
theorem leads_of_copying {α : Type} {m : HeapM α} {Q : α → Heap → Prop}
    (yields : (copying typed P keep base).Yields m h Q) :
    (course typed P).Leads m h fun a h' => Copying typed P keep base h' ∧
      h.Extends h' ∧ Q a h' := by
  obtain ⟨a, h', run, held, gone, result⟩ := yields
  exact .of_ok run held.region gone.1 ⟨held, gone.2, result⟩

/-- **A copy is made** of a value, at all levels. -/
theorem yields_copy (region : h.Realm typed P) (made : h.Made v) :
    (copying typed P false h.size).Yields (HeapM.copy v) h (CopyOf false h.size h.levels h v) :=
  yields_copyTo (.start region false) made (region.formed.endsIn v)

/-- The contents of a value, with copies for parts. -/
theorem yields_copyData (region : h.Realm typed P) :
    (copying typed P false h.size).Yields (HeapM.copyData v) h fun d h' =>
      (h.data v).Matches (fun p q => CopyOf false h.size h.levels h p q h') d := by
  have formed := region.formed
  refine Data.mapM_yields (C := copying typed P false h.size) (M := fun p q t =>
    CopyOf false h.size h.levels h p q t) (f := HeapM.copyTo false h.levels) (h.data v)
    (fun p q t u held copy gone => copy.extends held.region.formed gone.2)
      (Copying.start region false)
    fun p part t held gone => ?_
  have made := formed.parts v p part
  have ends : t.EndsIn h.levels p :=
    (formed.endsIn p).congr (fun u _ => formed.parts u)
      (fun u made => parts_congr (gone.2.cell u made)) made
  exact (yields_copyTo held (gone.2.made made) ends).weaken fun c u _ _ copy =>
    copy.source formed gone.2 made

/-! ### Copies in any heap -/

/-- Heaps that get more cells. -/
def extending : Course Heap where
  holds _ := True
  goes := Extends
  refl := Extends.refl
  trans first second := first.trans second

/-- Copies are made without a change to any cell, in whatever heap. -/
theorem extends_copyTo (keepLocks : Bool) (n : Nat) (v : Handle) (h : Heap) :
    extending.Yields (HeapM.copyTo keepLocks n v) h fun _ _ => True := by
  induction n generalizing h v with
  | zero => exact ⟨_, _, rfl, trivial, extends_push h _, trivial⟩
  | succ n ih =>
    have parts : extending.Yields ((h.data v).mapM (HeapM.copyTo keepLocks n)) h fun _ _ => True :=
      (Data.mapM_yields (M := fun _ _ _ => True) (h.data v) (fun _ _ _ _ _ _ _ => trivial) trivial
        fun p _ t _ _ => ih p t).weaken fun _ _ _ _ _ => trivial
    exact parts.bind (f := fun d => HeapM.alloc ⟨d, keepLocks && h.isLocked v⟩) fun d t _ _ _ =>
      ⟨_, _, rfl, trivial, extends_push t _, trivial⟩

/-- Copies leave what there is alone, in any heap. -/
theorem extends_copyData (v : Handle) (h : Heap) :
    extending.Yields (HeapM.copyData v) h fun _ _ => True :=
  (Data.mapM_yields (M := fun _ _ _ => True) (h.data v) (fun _ _ _ _ _ _ _ => trivial) trivial
    fun p _ t _ _ => extends_copyTo false h.levels p t).weaken fun _ _ _ _ _ => trivial

/-! ### Copies as results -/

/-- A copy is a new value. -/
theorem sound_copy : HeapM.Sound (HeapM.copy v) [v] fun c => [c] := by
  intro typed P h region given
  have made := (given v (by simp)).1
  refine (leads_of_copying (yields_copy region made)).weaken fun c h' held _ ⟨state, _, copy⟩ => ?_
  simpa using ⟨copy.made, state.fresh c copy.new⟩

/-- A duplicate is a new value, with copies for parts or with the same parts. -/
theorem sound_duplicate {kind : CloneKind} :
    HeapM.Sound (HeapM.duplicate kind v) [v] fun c => [c] := by
  intro typed P h region given
  have owned := given v (by simp)
  have shallow : (course typed P).Leads (do HeapM.new (← HeapM.dataOf v)) h fun c h' =>
      ∀ w ∈ [c], h'.Owned P w := by
    refine (Leads.look (Q := fun d h' => h' = h ∧ d = h.data v) region ⟨rfl, rfl⟩).bind
      fun d t held _ ⟨same, read⟩ => ?_
    subst same read
    exact (leads_new region (region.parts owned) (region.formed.fits v)
      (region.homogeneous · v)).weaken fun c h' _ _ result => by simpa using result.1
  cases kind with
  | deep => exact sound_copy P h region given
  | minimal => exact shallow
  | shallow => exact shallow

theorem sound_cloneWith {kind : CloneKind} :
    HeapM.Sound (HeapM.cloneWith kind v) [v] fun c => [c] := by
  intro typed P h region given
  have owned := given v (by simp)
  have shallow : (course typed P).Leads (do HeapM.alloc (← HeapM.look (·.cell v))) h fun c h' =>
      ∀ w ∈ [c], h'.Owned P w := by
    refine (Leads.look (Q := fun c h' => h' = h ∧ c = h.cell v) region ⟨rfl, rfl⟩).bind
      fun d t held _ ⟨same, read⟩ => ?_
    subst same read
    exact (leads_alloc region (region.parts owned) (region.formed.sealed v) (region.formed.fits v)
      (region.homogeneous · v)).weaken fun c h' _ _ result => by simpa using result.1
  cases kind with
  | deep =>
    have copy := yields_copyTo (.start region true) owned.1 (region.formed.endsIn v)
    refine (leads_of_copying copy).weaken fun c h' _ _ ⟨state, _, copy⟩ => ?_
    simpa using ⟨copy.made, state.fresh c copy.new⟩
  | minimal => exact shallow
  | shallow => exact shallow

/-! ## Locks -/

/-- What locking some values does to a heap. -/
structure Locks (roots : List Handle) (h h' : Heap) : Prop where
  size : h'.size = h.size
  data : ∀ w, h'.data w = h.data w
  keeps : ∀ w, h.isLocked w = true → h'.isLocked w = true
  reached : ∀ w, h.isLocked w = false → h'.isLocked w = true → ∃ r ∈ roots, h.Reaches r w
  roots : ∀ r ∈ roots, h'.isLocked r = true
  sealed : ∀ w, h.isLocked w = false → h'.isLocked w = true → ∀ p ∈ h.parts w, h'.isLocked p = true

namespace Locks

variable {roots : List Handle} {h h' h'' : Heap}

theorem parts (locks : Locks roots h h') (w : Handle) : h'.parts w = h.parts w := by
  simp only [Heap.parts, locks.data]

/-- A lock opens no way. -/
theorem reaches (locks : Locks roots h h') {u w : Handle} (reach : h'.Reaches u w) :
    h.Reaches u w :=
  reach.transfer (S := fun _ => True) (fun _ _ _ _ => trivial)
    (fun u _ => (locks.parts u).symm) trivial

theorem nil (h : Heap) : Locks [] h h where
  size := rfl
  data _ := rfl
  keeps _ locked := locked
  reached w unlocked locked := by simp [unlocked] at locked
  roots r mem := by cases mem
  sealed w unlocked locked := by simp [unlocked] at locked

/-- Locks one after the other. -/
theorem cons {v : Handle} (first : Locks [v] h h') (rest : Locks roots h' h'') :
    Locks (v :: roots) h h'' where
  size := rest.size.trans first.size
  data w := (rest.data w).trans (first.data w)
  keeps w locked := rest.keeps w (first.keeps w locked)
  reached w unlocked locked := by
    cases between : h'.isLocked w with
    | true =>
      obtain ⟨r, mem, reach⟩ := first.reached w unlocked between
      exact ⟨r, by simp_all, reach⟩
    | false =>
      obtain ⟨r, mem, reach⟩ := rest.reached w between locked
      exact ⟨r, by simp [mem], first.reaches reach⟩
  roots r mem := by
    obtain rfl | mem := List.mem_cons.mp mem
    · exact rest.keeps r (first.roots r (by simp))
    · exact rest.roots r mem
  sealed w unlocked locked p part := by
    cases between : h'.isLocked w with
    | true => exact rest.keeps p (first.sealed w unlocked between p part)
    | false => exact rest.sealed w between locked p (by rwa [first.parts])

/-- Locking in a well-formed heap is a change: what becomes locked is reached from the roots. -/
theorem locking (locks : Locks roots h h') (region : h.Region P) (owned : ∀ r ∈ roots, P r) :
    Locking P h h' where
  size := locks.size
  data := locks.data
  keeps := locks.keeps
  owned w unlocked locked := by
    obtain ⟨r, mem, reach⟩ := locks.reached w unlocked locked
    exact reach.closed region.closed (owned r mem)
  sealed w locked p part := by
    rw [locks.parts] at part
    cases before : h.isLocked w with
    | true => exact locks.keeps p (region.formed.sealed w before p part)
    | false => exact locks.sealed w before locked p part

end Locks

/-- The number of cells that are not locked. -/
def unlockedCount (h : Heap) : Nat :=
  ((Finset.range h.size).filter fun i => h.isLocked ⟨i⟩ = false).card

/-- Locks leave no more cells unlocked. -/
theorem Locks.unlockedCount_le {roots : List Handle} (locks : Locks roots h h') :
    h'.unlockedCount ≤ h.unlockedCount := by
  refine Finset.card_le_card fun i mem => ?_
  obtain ⟨inside, unlocked⟩ := Finset.mem_filter.mp mem
  refine Finset.mem_filter.mpr ⟨by rwa [locks.size] at inside, ?_⟩
  by_contra locked
  simp [locks.keeps ⟨i⟩ (by simpa using locked)] at unlocked

/-- The heap with one cell locked. -/
def lockedAt (h : Heap) (v : Handle) : Heap := h.setCell v { h.cell v with locked := true }

/-- What is unlocked has been made. -/
theorem made_of_unlocked (unlocked : h.isLocked v = false) : h.Made v := by
  by_contra no
  simp [isLocked, cell_of_not_made no, absent] at unlocked

theorem Extends.unlocked (ext : h.Extends h') (unlocked : h.isLocked v = false) :
    h'.isLocked v = false :=
  (isLocked_congr (ext.cell v (made_of_unlocked unlocked))).trans unlocked

theorem data_lockedAt (w : Handle) : (h.lockedAt v).data w = h.data w := by
  by_cases here : w = v
  · subst here
    by_cases made : h.Made w
    · simp only [data, lockedAt, cell_setCell_self h w _ made]
    · rw [data, data, cell_of_not_made made,
        cell_of_not_made (h := h.lockedAt w) (by simpa [lockedAt] using made)]
  · exact data_congr (cell_setCell_ne h _ here)

/-- One cell more is locked. -/
theorem isLocked_lockedAt (made : h.Made v) (w : Handle) :
    (h.lockedAt v).isLocked w = (h.isLocked w || decide (w = v)) := by
  by_cases here : w = v
  · subst here
    simp [isLocked, lockedAt, cell_setCell_self h w _ made]
  · simp [isLocked, lockedAt, cell_setCell_ne h _ here, here]

/-- So one cell less is unlocked, if it was. -/
theorem unlockedCount_lockedAt (unlocked : h.isLocked v = false) :
    (h.lockedAt v).unlockedCount < h.unlockedCount := by
  have made := made_of_unlocked unlocked
  refine Finset.card_lt_card ((Finset.ssubset_iff_of_subset fun i mem => ?_).mpr ⟨v.index, ?_, ?_⟩)
  · obtain ⟨inside, still⟩ := Finset.mem_filter.mp mem
    rw [isLocked_lockedAt made] at still
    exact Finset.mem_filter.mpr ⟨by simpa [lockedAt] using inside, by simp_all⟩
  · exact Finset.mem_filter.mpr ⟨Finset.mem_range.mpr made, unlocked⟩
  · intro mem
    have still := (Finset.mem_filter.mp mem).2
    simp [isLocked_lockedAt made] at still

/-- A cell that is locked, and then its parts. -/
theorem Locks.ofParts (unlocked : h.isLocked v = false)
    (rest : Locks (h.parts v) (h.lockedAt v) h') : Locks [v] h h' := by
  have made := made_of_unlocked unlocked
  have parts : ∀ w, (h.lockedAt v).parts w = h.parts w :=
    fun w => by simp only [Heap.parts, data_lockedAt]
  refine ⟨rest.size.trans (by simp [lockedAt]), fun w => (rest.data w).trans (data_lockedAt w),
    ?_, ?_, ?_, ?_⟩
  · intro w locked
    exact rest.keeps w (by simp [isLocked_lockedAt made, locked])
  · intro w before after
    by_cases here : w = v
    · exact ⟨v, by simp, here ▸ .refl _⟩
    · obtain ⟨p, part, reach⟩ :=
        rest.reached w (by simp [isLocked_lockedAt made, before, here]) after
      have reach : h.Reaches p w := reach.transfer (S := fun _ => True) (fun _ _ _ _ => trivial)
        (fun u _ => (parts u).symm) trivial
      exact ⟨v, by simp, .step part reach⟩
  · intro r mem
    rw [List.mem_singleton] at mem
    subst mem
    exact rest.keeps r (by simp [isLocked_lockedAt made])
  · intro w before after p part
    by_cases here : w = v
    · subst here
      exact rest.roots p part
    · exact rest.sealed w (by simp [isLocked_lockedAt made, before, here]) after p (by rwa [parts])

/-- **Locking.** With more levels than there are unlocked cells, locking ends and locks all that it
enters. -/
theorem run_lockTo {n : Nat} (enough : h.unlockedCount < n) :
    ∃ h', HeapM.lockTo n v h = .ok () h' ∧ Locks [v] h h' := by
  induction n generalizing h v with
  | zero => omega
  | succ n ih =>
    cases locked : h.isLocked v with
    | true =>
      refine ⟨h, by simp [HeapM.lockTo, HeapM.look, bind, EStateM.bind, pure, EStateM.pure, locked],
        ?_⟩
      exact ⟨rfl, fun _ => rfl, fun _ locked => locked,
        fun w before after => by simp [before] at after, by simp [locked], fun w before after => by
          simp [before] at after⟩
    | false =>
      have each : ∀ (ps : List Handle) (t : Heap), t.unlockedCount < n →
          ∃ h', ps.forM (HeapM.lockTo n) t = .ok () h' ∧ Locks ps t h' := by
        intro ps
        induction ps with
        | nil => exact fun t _ => ⟨t, rfl, .nil t⟩
        | cons p ps next =>
          intro t few
          obtain ⟨u, run, locks⟩ := ih (v := p) few
          obtain ⟨w, rest, more⟩ := next u (Nat.lt_of_le_of_lt locks.unlockedCount_le few)
          refine ⟨w, ?_, locks.cons more⟩
          change (HeapM.lockTo n p >>= fun _ => ps.forM (HeapM.lockTo n)) t = _
          simp only [Bind.bind, EStateM.bind, run, rest]
      have fewer := unlockedCount_lockedAt locked
      obtain ⟨h', run, locks⟩ := each (h.parts v) (h.lockedAt v) (by omega)
      refine ⟨h', ?_, .ofParts locked locks⟩
      rw [← run]
      simp [HeapM.lockTo, HeapM.look, HeapM.lockCell, bind, EStateM.bind, locked, lockedAt]

/-- A lock that goes down through unlocked cells has levels enough. -/
theorem unlockedCount_lt_levels (h : Heap) : h.unlockedCount < h.levels := by
  have few : h.unlockedCount ≤ h.size := by
    simpa [unlockedCount] using Finset.card_filter_le (Finset.range h.size) fun i =>
      h.isLocked ⟨i⟩ = false
  simp only [levels]
  omega

/-- Locking a value locks it and what it reaches, and changes nothing else. -/
theorem run_lock (h : Heap) (v : Handle) : ∃ h', HeapM.lock v h = .ok () h' ∧ Locks [v] h h' :=
  run_lockTo h.unlockedCount_lt_levels

/-- A lock yields nothing. -/
theorem sound_lock : HeapM.Sound (HeapM.lock v) [v] fun _ => [] := by
  intro typed P h region given
  obtain ⟨h', run, locks⟩ := run_lock h v
  have change : Change P h h' :=
    .lock h' (locks.locking region.toRegion (by simpa using (given v (by simp)).2))
  exact Leads.of_ok run (change.realm region fun _ w => .inl (locks.data w))
    (.single change) (by simp)

end ScriptHost.Heap
