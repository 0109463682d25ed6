import ScriptHost.Proofs.Heap.Tree
import ScriptHost.Proofs.Host.Run
import ScriptHost.Proofs.Value.Assign

/-!
# Assignment is assignment of images

An image is a value with its parts spelled out, and `Image.assign` assigns one image to another
without any cells. Here the cells are related to it. When the target is a tree that is apart from
the source, each element or member is assigned while the others keep their images, so the run over
the cells and the one over the images go side by side, fault for fault.

The induction is on the depth of the source. What a step needs of the source is `Serves`, which an
assignment to one part of the target leaves true for the rest (`Refines.step`).
-/

set_option autoImplicit false

namespace ScriptHost

open Course

theorem endState_congr {σ ε α : Type} {m m' : EStateM ε σ α} {s : σ} (run : m s = m' s) :
    endState m s = endState m' s := by
  rw [endState, endState, run]

/-! ## Names and what stands under them -/

namespace Named

variable {α β : Type} {name : String}

theorem find_map (f : α → β) (ms : List (String × α)) :
    find name (ms.map fun m => (m.1, f m.2)) = (find name ms).map f := by
  induction ms with
  | nil => rfl
  | cons m ms ih =>
    by_cases here : m.1 = name
    · simp [find, here]
    · simp [find, here, ih]

/-- A map that is changed at one value changes what stands under its name. -/
theorem put_map {f g : α → β} {ms : List (String × α)} {a : α} (found : find name ms = some a)
    (distinct : (ms.map (·.2)).Nodup) (same : ∀ b ∈ ms.map (·.2), b ≠ a → f b = g b) :
    put name (f a) (ms.map fun m => (m.1, g m.2)) = ms.map fun m => (m.1, f m.2) := by
  induction ms with
  | nil => cases found
  | cons m ms ih =>
    obtain ⟨k, b⟩ := m
    obtain ⟨fresh, distinct⟩ := List.nodup_cons.mp distinct
    by_cases here : k = name
    · simp only [find, here, if_true, Option.some.injEq] at found
      subst found
      have rest : ms.map (fun m => (m.1, g m.2)) = ms.map fun m => (m.1, f m.2) := by
        refine List.map_congr_left fun m mem => ?_
        have inside : m.2 ∈ ms.map (·.2) := List.mem_map_of_mem mem
        rw [same m.2 (by simp [inside]) fun e => fresh (e ▸ inside)]
      simp only [List.map_cons, put, here, if_true, rest]
    · simp only [find, here, if_false] at found
      have other : b ≠ a := by
        rintro rfl
        exact fresh (List.mem_map_of_mem (f := (·.2)) (mem_of_find found))
      have rest := ih found distinct fun c mem => same c (by simp [mem])
      simp only [List.map_cons, put, here, if_false, rest, same b (by simp) other]

end Named

namespace Heap

variable {h : Heap} {t r : Handle} {n : Nat} {f : Handle → Handle → HeapM Unit}

/-! ## The heap after an assignment -/

/-- Assignments to one target after the other. -/
theorem endState_assignItems {pairs : List (Handle × Handle)} (assigner : HeapM.Assigner f)
    (formed : h.WellFormed) (made : ∀ p ∈ pairs, h.Made p.1 ∧ h.Made p.2) :
    (endState (pairs.forM fun p => f p.1 p.2) h).WellFormed ∧
      Assigned h (fun w => ∃ p ∈ pairs, h.Reaches p.1 w)
        (endState (pairs.forM fun p => f p.1 p.2) h) := by
  have region : h.Realm False fun _ => True := formed.region.realm
  have course : (course False fun _ => True).Leads (pairs.forM fun p => f p.1 p.2) h
      fun _ _ => True := by
    refine Leads.forM region fun p mem u state gone => ?_
    have first : h.Owned (fun _ => True) p.1 := ⟨(made p mem).1, trivial⟩
    have second : h.Owned (fun _ => True) p.2 := ⟨(made p mem).2, trivial⟩
    exact leads_assigner assigner state (first.changes gone) (second.changes gone)
  have entire : h.Entire fun w => ∃ p ∈ pairs, h.Reaches p.1 w := by
    rintro u ⟨p, mem, reach⟩ _ q part
    exact ⟨p, mem, SameFrom.inherited h p.1 u reach q part⟩
  have start : Assigned h (fun w => ∃ p ∈ pairs, h.Reaches p.1 w) h := .start formed.parts _
  have writes : (assigning h fun w => ∃ p ∈ pairs, h.Reaches p.1 w).Leads
      (pairs.forM fun p => f p.1 p.2) h fun _ _ => True :=
    Leads.forM start fun p mem u state _ => assigning_assigner assigner entire state fun _ =>
      ⟨p, mem, .refl _⟩
  exact ⟨course.atEnd.1.formed, writes.atEnd.1⟩

/-! ## Taking over copies -/

/-- What takes over copies looks like their source, without locks. -/
theorem viewed_adopt (formed : h.WellFormed) (unlocked : h.isLocked t = false)
    (after : (endState (HeapM.copyData r >>= HeapM.write t) h).WellFormed) :
    viewed (·.image t) ((HeapM.copyData r >>= HeapM.write t) h) = .ok () (h.image r).unlocked := by
  have made := made_of_unlocked unlocked
  obtain ⟨d, u, run, state, ⟨-, ext⟩, matched⟩ :=
    yields_copyData (v := r) (formed.region.realm : h.Realm False fun _ => True)
  have still := ext.unlocked unlocked
  have whole : (HeapM.copyData r >>= HeapM.write t) h = .ok () (u.setCell t ⟨d, false⟩) :=
    (HeapM.bind_of_ok run _).trans (HeapM.write_of_unlocked still d)
  have ends : endState (HeapM.copyData r >>= HeapM.write t) h = u.setCell t ⟨d, false⟩ := by
    rw [endState, whole]
  rw [ends] at after
  have here : (u.setCell t ⟨d, false⟩).cell t = ⟨d, false⟩ :=
    cell_setCell_self u t _ (ext.made made)
  -- the copies are new, so the write to `t` does not reach them
  have copies : d.map (u.setCell t ⟨d, false⟩).image = d.map u.image := by
    refine Data.map_congr fun q part => SameFrom.image (fun w reach => ?_) state.region.formed after
    obtain ⟨_, -, copy⟩ := matched.exists_part part
    apply cell_setCell_ne
    rintro rfl
    exact Nat.not_lt.mpr (state.new_of_reaches reach copy.new) made
  have images : (h.data r).map (fun p => (h.image p).unlocked) = d.map u.image :=
    matched.map_eq fun p q copy => (copy.image_eq state.region.formed).symm
  rw [whole, viewed, after.image_eq, formed.image_eq r, Image.unlocked_node, Data.map_map,
    images, ← copies]
  simp only [isLocked, data, here]

/-! ## Elements and members -/

/-- What a source needs to be for assignments to some targets: made, not too deep, and apart from
the targets. -/
structure Serves (h : Heap) (n : Nat) (ts : List Handle) (r : Handle) : Prop where
  made : h.Made r
  ends : h.EndsIn n r
  apart : ∀ t ∈ ts, h.Apart t r

/-- Assignments from sources that are so deep are those of images. -/
structure Refines (n : Nat) (f : Handle → Handle → HeapM Unit) : Prop where
  assigner : HeapM.Assigner f
  images : ∀ {h : Heap} {t r : Handle}, h.WellFormed → h.Made t → h.IsTree t → h.Serves n [t] r →
    viewed (·.image t) (f t r h) = (h.image r).assign (h.image t)

variable {ts rs : List Handle}

/-- The parts of a source serve for the parts of a target. -/
theorem Serves.part {x : Handle} (serves : h.Serves (n + 1) [t] r) (formed : h.WellFormed)
    (part : x ∈ h.parts r) : h.Serves n (h.parts t) x where
  made := formed.parts r x part
  ends := serves.ends x part
  apart _ mem := (serves.apart t (by simp)).mono (.step mem (.refl _)) (.step part (.refl _))

/-- What is true after an assignment to one of the trees of a forest: the others, and all sources,
are as they were. -/
structure Advanced (h u : Heap) (n : Nat) (ts : List Handle) (t : Handle) : Prop where
  formed : u.WellFormed
  forest : u.Forest ts
  others : ∀ x ∈ ts, x ≠ t → u.image x = h.image x
  sources : ∀ x, h.Serves n ts x → u.image x = h.image x ∧ u.Serves n ts x

/-- **One step**: an assignment to a tree of a forest is that of the images, and the next one can
follow. -/
theorem Refines.step (refines : Refines n f) (formed : h.WellFormed) (forest : h.Forest ts)
    (mem : t ∈ ts) (serves : h.Serves n ts r) :
    viewed (·.image t) (f t r h) = (h.image r).assign (h.image t) ∧
      h.Advanced (endState (f t r) h) n ts t := by
  have made := forest.made t mem
  obtain ⟨formed', assigned⟩ := endState_assigner refines.assigner formed made serves.made
  obtain ⟨forest', others⟩ := forest.assigned formed mem assigned
  have alone : h.Serves n [t] r :=
    ⟨serves.made, serves.ends, fun x here => serves.apart x (List.mem_singleton.mp here ▸ mem)⟩
  refine ⟨refines.images formed made (forest.tree t mem) alone, formed', forest', ?_,
    fun x serves => ?_⟩
  · exact fun x inside other => (others x inside other).image formed formed'
  · have same :=
      assigned.sameFrom formed serves.made fun u reach inside => serves.apart t mem u inside reach
    refine ⟨same.image formed formed', assigned.made serves.made, same.endsIn serves.ends,
      fun y inside => ?_⟩
    by_cases here : y = t
    · subst here
      exact assigned.staysApart formed serves.made (serves.apart y inside)
    · exact (others y inside here).apart same (serves.apart y inside)

/-- **Elements.** Assignments to the trees of a forest, one after the other, are those of their
images. -/
theorem viewed_assignItems (refines : Refines n f) (formed : h.WellFormed) (forest : h.Forest ts)
    (serve : ∀ s ∈ rs, h.Serves n ts s) :
    viewed (fun h' => ts.map h'.image) ((ts.zip rs).forM (fun p => f p.1 p.2) h) =
      Image.assignItems (rs.map h.image) (ts.map h.image) := by
  induction ts generalizing rs h with
  | nil =>
    cases rs with
    | nil => rfl
    | cons s rs => rfl
  | cons t ts ih =>
    cases rs with
    | nil => rfl
    | cons s rs =>
      obtain ⟨first, advanced⟩ :=
        refines.step (t := t) formed forest List.mem_cons_self (serve s List.mem_cons_self)
      have split : ((t :: ts).zip (s :: rs)).forM (fun p => f p.1 p.2) =
          f t s >>= fun _ => (ts.zip rs).forM fun p => f p.1 p.2 := rfl
      rw [split]
      simp only [List.map_cons, Image.assignItems, ← first]
      obtain ⟨u, ends⟩ : ∃ u, endState (f t s) h = u := ⟨_, rfl⟩
      rw [ends] at advanced
      have rest : ts.map u.image = ts.map h.image := by
        refine List.map_congr_left fun x mem => advanced.others x (by simp [mem]) ?_
        rintro rfl
        exact (List.nodup_cons.mp forest.nodup).1 mem
      cases run : f t s h with
      | error f u' =>
        obtain rfl : u' = u := by rw [← ends, endState, run]
        rw [HeapM.bind_of_error run]
        simp only [viewed_error, rest]
      | ok a u' =>
        obtain rfl : u' = u := by rw [← ends, endState, run]
        rw [HeapM.bind_of_ok run]
        have again : ∀ x ∈ rs, u'.image x = h.image x ∧ u'.Serves n (t :: ts) x := fun x mem =>
          advanced.sources x (serve x (by simp [mem]))
        have left : ∀ x ∈ rs, u'.Serves n ts x := fun x mem =>
          ⟨(again x mem).2.made, (again x mem).2.ends,
            fun y inside => (again x mem).2.apart y (by simp [inside])⟩
        have sources : rs.map h.image = rs.map u'.image :=
          List.map_congr_left fun x mem => (again x mem).1.symm
        simp only [viewed_ok]
        rw [← rest, sources, ← ih advanced.formed advanced.forest.tail left, viewed_viewed]
        -- the first target is apart from the others, so it stays what it has become
        have existing : ∀ p ∈ ts.zip rs, u'.Made p.1 ∧ u'.Made p.2 := by
          intro p mem
          obtain ⟨target, source⟩ := List.of_mem_zip (a := p.1) (b := p.2) mem
          exact ⟨advanced.forest.made p.1 (by simp [target]), (left p.2 source).made⟩
        obtain ⟨formed', later⟩ := endState_assignItems refines.assigner advanced.formed existing
        have same := later.sameFrom advanced.formed (advanced.forest.made t (by simp))
            fun w reach inside => by
          obtain ⟨p, mem, reach'⟩ := inside
          obtain ⟨target, -⟩ := List.of_mem_zip (a := p.1) (b := p.2) mem
          exact (List.pairwise_cons.mp advanced.forest.apart).1 p.1 target w reach reach'
        apply viewed_congr
        rw [same.image advanced.formed formed']

/-- **Members.** Assignments to the members of given names, one after the other, are those of their
images. A name that comes twice has its member assigned to twice: that is where a forest has to stay
one. -/
theorem viewed_assignMembers {q : Record Handle} {ss : List (String × Handle)}
    (refines : Refines n f) (formed : h.WellFormed) (forest : h.Forest q.values)
    (serve : ∀ s ∈ ss, h.Serves n q.values s.2) :
    viewed (fun h' => q.members.map fun m => (m.1, h'.image m.2)) (ss.forM (assignMember f q) h) =
      Image.assignMembers (ss.map fun s => (s.1, h.image s.2))
        (q.members.map fun m => (m.1, h.image m.2)) := by
  induction ss generalizing h with
  | nil => rfl
  | cons s ss ih =>
    have split : (s :: ss).forM (assignMember f q) = assignMember f q s >>= fun _ =>
        ss.forM (assignMember f q) := rfl
    rw [split]
    cases found : Named.find s.1 q.members with
    | none =>
      have missing : HeapM.of (q.get s.1) h = .error (.noSuchMember s.1) h := by
        simp only [HeapM.of, HeapM.ask, Record.get, found]
      have run : assignMember f q s h = .error (.noSuchMember s.1) h :=
        HeapM.bind_of_error missing _
      rw [HeapM.bind_of_error run]
      simp only [List.map_cons, Image.assignMembers, Named.find_map, found,
        Option.map_none, viewed_error]
    | some t =>
      have get : HeapM.of (q.get s.1) h = .ok t h := by
        simp only [HeapM.of, HeapM.ask, Record.get, found]
      have opened : assignMember f q s h = f t s.2 h := HeapM.bind_of_ok get _
      have mem : t ∈ q.values := List.mem_map_of_mem (f := (·.2)) (Named.mem_of_find found)
      obtain ⟨first, advanced⟩ := refines.step formed forest mem (serve s (by simp))
      obtain ⟨u, ends⟩ : ∃ u, endState (f t s.2) h = u := ⟨_, rfl⟩
      rw [ends] at advanced
      have rest : q.members.map (fun m => (m.1, u.image m.2)) =
          Named.put s.1 (u.image t) (q.members.map fun m => (m.1, h.image m.2)) :=
        (Named.put_map found forest.nodup advanced.others).symm
      simp only [List.map_cons, Image.assignMembers, Named.find_map, found,
        Option.map_some, ← first]
      cases run : f t s.2 h with
      | error f u' =>
        obtain rfl : u' = u := by rw [← ends, endState, run]
        rw [HeapM.bind_of_error (opened.trans run)]
        simp only [viewed_error, rest]
      | ok a u' =>
        obtain rfl : u' = u := by rw [← ends, endState, run]
        rw [HeapM.bind_of_ok (opened.trans run)]
        have again : ∀ x ∈ ss, u'.image x.2 = h.image x.2 ∧ u'.Serves n q.values x.2 :=
          fun x inside => advanced.sources x.2 (serve x (by simp [inside]))
        have sources : ss.map (fun s => (s.1, h.image s.2)) = ss.map fun s => (s.1, u'.image s.2) :=
          List.map_congr_left fun x inside => by rw [(again x inside).1]
        simp only [viewed_ok]
        rw [← rest, sources, ih advanced.formed advanced.forest fun x inside => (again x inside).2]

/-! ## Assignment -/

theorem assignContents_leaf {l : Leaf} {d : Data Handle} (other : l ≠ .null) :
    assignContents f t r d (.leaf l) = HeapM.of (HeapM.convertInto l d) >>= fun m =>
      HeapM.write t (.leaf m) := by
  cases l with
  | null => exact absurd rfl other
  | _ => rfl

theorem data_image (formed : h.WellFormed) (r : Handle) :
    (h.image r).data = (h.data r).map h.image := by
  rw [formed.image_eq r]
  rfl

theorem kind_image (formed : h.WellFormed) (r : Handle) : (h.image r).kind = (h.data r).kind := by
  rw [Image.kind, data_image formed, Data.kind_map]

/-- The image of a source is received by that of the target, and its parts enter it. -/
theorem assign_image (formed : h.WellFormed) (r : Handle) (i : Image) :
    (h.image r).assign i = Image.receive (h.image r) (Image.enter ((h.data r).map h.image)) i := by
  rw [formed.image_eq r]
  rfl

/-- Only a dictionary is a source for one. -/
theorem sourceDictionary_eq (d : Data Handle) :
    HeapM.sourceDictionary d = if d.kind = .dictionary then .ok ()
      else .error (.cannotCast d.kind.name Kind.dictionary.name) := by
  cases d with
  | leaf l => cases l <;> rfl
  | _ => rfl

section Contents

variable {enter : EStateM Fault (Data Image) Unit}

/-- A scalar, a type or an executable is given the source. -/
theorem viewed_leaf {l : Leaf} (formed : h.WellFormed) (unlocked : h.isLocked t = false)
    (held : h.data t = .leaf l) (other : l ≠ .null) :
    viewed (·.image t) (assignContents f t r (h.data r) (.leaf l) h) =
      Image.receive (h.image r) enter (.node false (.leaf l)) := by
  rw [assignContents_leaf other, Image.receive_leaf other, data_image formed, Leaf.given_map other]
  cases HeapM.convertInto l (h.data r) with
  | ok m =>
    have run : (HeapM.of (.ok m) >>= fun m => HeapM.write t (.leaf m)) h =
        .ok () (h.setCell t ⟨.leaf m, false⟩) :=
      HeapM.write_of_unlocked unlocked (.leaf m)
    have here : (h.setCell t ⟨.leaf m, false⟩).cell t = ⟨.leaf m, false⟩ :=
      cell_setCell_self h t _ (made_of_unlocked unlocked)
    have image : (h.setCell t ⟨.leaf m, false⟩).image t = .node false (.leaf m) := by
      simp only [Heap.image, levels, imageTo, isLocked, data, here, Data.map]
    rw [run, viewed_ok, image]
    rfl
  | error f =>
    change EStateM.Result.error f (h.image t) = _
    rw [formed.image_eq t, unlocked, held]
    rfl

/-- A dictionary takes over copies of another one. -/
theorem viewed_dictionary {d : Dictionary Handle} (formed : h.WellFormed)
    (unlocked : h.isLocked t = false) (held : h.data t = .dictionary d)
    (after : (endState (assignContents f t r (h.data r) (.dictionary d)) h).WellFormed) :
    viewed (·.image t) (assignContents f t r (h.data r) (.dictionary d) h) =
      Image.receive (h.image r) enter (.node false (.dictionary (d.map h.image))) := by
  by_cases dictionary : (h.data r).kind = .dictionary
  · have run : assignContents f t r (h.data r) (.dictionary d) h =
        (HeapM.copyData r >>= HeapM.write t) h := by
      rw [assignContents, sourceDictionary_eq, if_pos dictionary]
      rfl
    rw [run, viewed_adopt formed unlocked (endState_congr run ▸ after), Image.receive,
      kind_image formed, if_pos dictionary]
  · have run : assignContents f t r (h.data r) (.dictionary d) h =
        .error (.cannotCast (h.data r).kind.name Kind.dictionary.name) h := by
      rw [assignContents, sourceDictionary_eq, if_neg dictionary]
      rfl
    rw [run, viewed_error, formed.image_eq t, unlocked, held, Image.receive, kind_image formed,
      if_neg dictionary]
    rfl

/-- What is entered stays as it is, and looks like its parts do. -/
theorem image_of_entered {h' : Heap} (formed' : h'.WellFormed) (unlocked : h.isLocked t = false)
    (same : h'.cell t = h.cell t) : h'.image t = .node false ((h.data t).map h'.image) := by
  rw [formed'.image_eq t, isLocked_congr same, data_congr same, unlocked]

/-- An array is assigned to element by element. -/
theorem viewed_array {s : Sequence Handle} (refines : Refines n f) (formed : h.WellFormed)
    (tree : h.IsTree t) (serves : h.Serves (n + 1) [t] r) (unlocked : h.isLocked t = false)
    (held : h.data t = .array s)
    (after : (endState (assignContents f t r (h.data r) (.array s)) h).WellFormed)
    (same : (endState (assignContents f t r (h.data r) (.array s)) h).cell t = h.cell t) :
    viewed (·.image t) (assignContents f t r (h.data r) (.array s) h) =
      viewed (.node false) (Image.enter ((h.data r).map h.image) (.array (s.map h.image))) := by
  have before : h.image t = .node false (.array (s.map h.image)) := by
    rw [formed.image_eq t, unlocked, held]; rfl
  have targets : h.parts t = s.items := by rw [parts, held]; rfl
  cases given : h.data r with
  | array q =>
    rw [given] at after same
    have sources : h.parts r = q.items := by rw [parts, given]; rfl
    rw [Data.map, Image.enter_array]
    by_cases length : q.length = s.length
    · have run : assignContents f t r (.array q) (.array s) h =
          (s.items.zip q.items).forM (fun p => f p.1 p.2) h := by
        rw [assignContents, HeapM.sourceItems, if_pos length]
        rfl
      have items :=
        viewed_assignItems refines formed (targets ▸ Forest.ofParts formed tree) fun x mem =>
          targets ▸ serves.part formed (sources ▸ mem)
      rw [endState_congr run] at after same
      rw [if_pos length, run, ← items, viewed_viewed, viewed_viewed]
      refine viewed_congr ?_
      rw [image_of_entered after unlocked same, held]
      rfl
    · have run : assignContents f t r (.array q) (.array s) h =
          .error (.lengthsDiffer q.length s.length) h := by
        rw [assignContents, HeapM.sourceItems, if_neg length]
        rfl
      rw [if_neg length, run, viewed_error, viewed_error, before]
  | leaf l | dictionary e | record e =>
    change EStateM.Result.error _ (h.image t) = _
    rw [before]
    rfl

/-- A structure is assigned to member by member. -/
theorem viewed_record {p : Record Handle} (refines : Refines n f) (formed : h.WellFormed)
    (tree : h.IsTree t) (serves : h.Serves (n + 1) [t] r) (unlocked : h.isLocked t = false)
    (held : h.data t = .record p)
    (after : (endState (assignContents f t r (h.data r) (.record p)) h).WellFormed)
    (same : (endState (assignContents f t r (h.data r) (.record p)) h).cell t = h.cell t) :
    viewed (·.image t) (assignContents f t r (h.data r) (.record p) h) =
      viewed (.node false) (Image.enter ((h.data r).map h.image) (.record (p.map h.image))) := by
  have before : h.image t = .node false (.record (p.map h.image)) := by
    rw [formed.image_eq t, unlocked, held]; rfl
  have targets : h.parts t = p.values := by rw [parts, held]; rfl
  cases given : h.data r with
  | record q =>
    rw [given] at after same
    have sources : h.parts r = q.values := by rw [parts, given]; rfl
    rw [Data.map, Image.enter_record]
    by_cases names : q.length = p.names.length ∧ q.names.all p.names.contains = true
    · have run : assignContents f t r (.record q) (.record p) h =
          q.members.forM (assignMember f p) h := by
        rw [assignContents, HeapM.sourceMembers, if_pos names]
        rfl
      have members :=
        viewed_assignMembers refines formed (targets ▸ Forest.ofParts formed tree) fun x mem =>
          targets ▸ serves.part formed (sources ▸ List.mem_map_of_mem (f := (·.2)) mem)
      rw [endState_congr run] at after same
      rw [if_pos names, run, ← members, viewed_viewed, viewed_viewed]
      refine viewed_congr ?_
      rw [image_of_entered after unlocked same, held]
      rfl
    · have run : assignContents f t r (.record q) (.record p) h = .error .membersDiffer h := by
        rw [assignContents, HeapM.sourceMembers, if_neg names]
        rfl
      rw [if_neg names, run, viewed_error, viewed_error, before]
  | leaf l | dictionary e | array e =>
    change EStateM.Result.error _ (h.image t) = _
    rw [before]
    rfl

end Contents

/-- **One level of an assignment** is one of images, where the assignments to parts are. -/
theorem Refines.once (refines : Refines n f) : Refines (n + 1) (HeapM.assignOnce f) := by
  refine ⟨refines.assigner.once, fun {h t r} formed made tree serves => ?_⟩
  have apart := serves.apart t (by simp)
  obtain ⟨formed', assigned⟩ := endState_assigner refines.assigner.once formed made serves.made
  rw [assign_image formed]
  cases locked : h.isLocked t with
  | true =>
    have run : HeapM.assignOnce f t r h = .error .valueLocked h := by
      unfold HeapM.assignOnce
      exact HeapM.bind_of_error (HeapM.writable_of_locked locked) _
    rw [run, viewed_error, formed.image_eq t, locked]
    rfl
  | false =>
    have run : HeapM.assignOnce f t r h = _ := run_assignOnce locked apart.ne
    have entered : (h.data t).isEntered = true →
        (endState (HeapM.assignOnce f t r) h).cell t = h.cell t := by
      intro entered
      refine (assigned.cell t made).resolve_right fun replaced => ?_
      rw [replaced.unentered] at entered
      cases entered
    rw [endState_congr run] at formed' entered
    rw [run, formed.image_eq t, locked]
    cases held : h.data t with
    | leaf l =>
      by_cases null : l = .null
      · subst null
        rw [held] at formed'
        exact viewed_adopt formed locked formed'
      · exact viewed_leaf formed locked held null
    | array s =>
      rw [held] at formed' entered
      exact viewed_array refines formed tree serves locked held formed' (entered rfl)
    | dictionary d =>
      rw [held] at formed'
      exact viewed_dictionary formed locked held formed'
    | record p =>
      rw [held] at formed' entered
      exact viewed_record refines formed tree serves locked held formed' (entered rfl)

theorem refines_assignTo (n : Nat) : Refines n (HeapM.assignTo n) := by
  induction n with
  | zero => exact ⟨.stop, fun _ _ _ serves => serves.ends.elim⟩
  | succ n ih => exact ih.once

/-- **Assignment is that of images**, with as many levels as the source is deep. -/
theorem refines_assignWithin (base n : Nat) : Refines n (HeapM.assignWithin base n) := by
  induction n with
  | zero => exact ⟨.stop, fun _ _ _ serves => serves.ends.elim⟩
  | succ n ih =>
    rw [HeapM.assignWithin_succ]
    refine Refines.once ⟨ih.assigner.within base,
      fun {h t r} formed made tree serves => ?_⟩
    split
    · exact ih.images formed made tree serves
    · -- cells that the assignment has made are assigned to with the levels of the heap, which no
      -- value is deeper than
      exact (refines_assignTo h.levels).images formed made tree
        ⟨serves.made, formed.endsIn r, serves.apart⟩

/-- What a target spans it still spans, through the same arrays and structures. -/
theorem Assigned.spans {h' : Heap} {S : Handle → Prop} {w : Handle} (assigned : Assigned h S h')
    (spans : h.Spans t w) : h'.Spans t w := by
  induction spans with
  | refl v => exact .refl v
  | @step v p w entered part rest ih =>
    have same : h'.cell v = h.cell v := by
      refine (assigned.cell v (made_of_part part)).resolve_right fun replaced => ?_
      rw [replaced.unentered] at entered
      cases entered
    exact .step (by rwa [data_congr same]) (by rwa [parts_congr same]) ih

/-- **Assignment refines assignment of images.** Let the cells that a target reaches form a tree,
and let it share none of them with the source. Then an assignment ends as that of the images does,
with the same fault if it fails, and leaves the target with the image that the other one leaves, so
that after a fault it is what had been assigned before. The source keeps its image, and no cell
changes that the target does not reach. What the target spanned it spans still: its arrays and
structures hold the same cells as before. And it is still a tree. -/
theorem assign_refines (formed : h.WellFormed) (made : h.Made t) (given : h.Made r)
    (tree : h.IsTree t) (apart : h.Apart t r) :
    viewed (·.image t) (HeapM.assign t r h) = (h.image r).assign (h.image t) ∧
      (endState (HeapM.assign t r) h).image r = h.image r ∧
      (∀ w, h.Made w → ¬ h.Reaches t w → (endState (HeapM.assign t r) h).cell w = h.cell w) ∧
      (∀ w, h.Spans t w → (endState (HeapM.assign t r) h).Spans t w ∧
        ((h.data w).isEntered = true → (endState (HeapM.assign t r) h).cell w = h.cell w)) ∧
      (endState (HeapM.assign t r) h).IsTree t := by
  obtain ⟨formed', assigned⟩ := endState_assigner .assign formed made given
  have outside : ∀ w, h.Made w → ¬ h.Reaches t w → _ = h.cell w := fun w made away =>
    (assigned.cell w made).resolve_right fun replaced => away replaced.inside
  refine ⟨?_, ?_, outside, fun w spans => ⟨assigned.spans spans, fun entered => ?_⟩,
    assigned.isTree tree⟩
  · exact (refines_assignWithin h.size h.levels).images formed made tree
      ⟨given, formed.endsIn r, fun x mem => by rwa [List.mem_singleton.mp mem]⟩
  · exact (assigned.sameFrom formed given fun w reach inside => apart w inside reach).image
      formed formed'
  · refine (assigned.cell w (formed.made_of_reaches spans.reaches made)).resolve_right
      fun replaced => ?_
    rw [replaced.unentered] at entered
    cases entered

/-- Cells that hold only one another, each in one place, listed. -/
theorem isTree_of_list {L : List Handle} (root : t ∈ L) (closed : ∀ u ∈ L, ∀ p ∈ h.parts u, p ∈ L)
    (holder : ∀ u ∈ L, ∀ w ∈ L, ∀ p ∈ h.parts u, p ∈ h.parts w → u = w)
    (place : ∀ u ∈ L, (h.parts u).Nodup) : h.IsTree t := by
  have inside : ∀ {u : Handle}, h.Reaches t u → u ∈ L :=
    fun reach => reach.closed (S := (· ∈ L)) closed root
  exact ⟨fun u w p first second left right =>
    holder u (inside first) w (inside second) p left right, fun u reach => place u (inside reach)⟩

/-- A structure of a list of integers and a Null is assigned one with a list for the Null and, for
the list, a Boolean and a Null. The Boolean becomes an integer, the Null is refused, and what came
before it stays. -/
theorem assign_refines_partial :
    let s := Session.after (.bare .default)
      [.hold "target"
        (.record [("list", .array 1 [.literal (.integer 5), .literal (.integer 2)] .refuse),
          ("blank", .literal .placeholder)]),
        .hold "source" (.record [("blank", .array 1 [.literal (.string "x")] .refuse),
          ("list", .array 1 [.literal (.boolean true), .literal .null] .refuse)])]
    let h := endState (HeapM.assign ⟨4⟩ ⟨10⟩) s.heap
    s.heap.IsTree ⟨4⟩ ∧ s.heap.Apart ⟨4⟩ ⟨10⟩ ∧
      HeapM.succeeds (HeapM.assign ⟨4⟩ ⟨10⟩) s.heap = false ∧ viewed (·.image ⟨4⟩)
        (HeapM.assign ⟨4⟩ ⟨10⟩ s.heap) = (s.heap.image ⟨10⟩).assign (s.heap.image ⟨4⟩) ∧
      h.kind ⟨3⟩ = .array ∧ (h.data ⟨0⟩).asInteger.toOption = some 1 ∧
      (h.data ⟨1⟩).asInteger.toOption = some 2 ∧
      h.cell ⟨2⟩ = s.heap.cell ⟨2⟩ := by
  intro s h
  have reachable : s.Reachable := Host.reachable_after ⟨.default, true, [], none⟩ _
  have tree : s.heap.IsTree ⟨4⟩ := by
    apply isTree_of_list (L := [⟨0⟩, ⟨1⟩, ⟨2⟩, ⟨3⟩, ⟨4⟩]) (by decide)
    all_goals decide +kernel
  have apart : s.heap.Apart ⟨4⟩ ⟨10⟩ := by
    intro u first second
    have left : u ∈ [⟨0⟩, ⟨1⟩, ⟨2⟩, ⟨3⟩, (⟨4⟩ : Handle)] :=
      first.closed (S := (· ∈ _)) (by decide +kernel) (by decide)
    have right : u ∈ [⟨5⟩, ⟨6⟩, ⟨7⟩, ⟨8⟩, ⟨9⟩, (⟨10⟩ : Handle)] :=
      second.closed (S := (· ∈ _)) (by decide +kernel) (by decide)
    have disjoint : ∀ u ∈ [⟨0⟩, ⟨1⟩, ⟨2⟩, ⟨3⟩, (⟨4⟩ : Handle)],
        u ∉ [⟨5⟩, ⟨6⟩, ⟨7⟩, ⟨8⟩, ⟨9⟩, (⟨10⟩ : Handle)] := by decide
    exact disjoint u left right
  obtain ⟨refined, -, -, kept, -⟩ :=
    assign_refines reachable.wellFormed (by decide +kernel) (by decide +kernel) tree apart
  have spans : s.heap.Spans ⟨4⟩ ⟨2⟩ :=
    .step (p := ⟨2⟩) (by decide +kernel) (by decide +kernel) (.refl _)
  exact ⟨tree, apart, by decide +kernel, refined, by decide +kernel, by decide +kernel,
    by decide +kernel, (kept ⟨2⟩ spans).2 (by decide +kernel)⟩

end Heap

end ScriptHost
