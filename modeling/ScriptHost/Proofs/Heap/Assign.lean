import ScriptHost.Heap.Step
import ScriptHost.Proofs.Heap.Copy
import ScriptHost.Proofs.Heap.Search

/-!
# Assignment

An assignment changes what the target is made of, through arrays and structures, and reads the
source. A Null that takes on a value, and a dictionary, are given copies, whose cells are all new;
so nothing they are given leads back to them, also when the target lies inside the source. That is
why assignment can store values without a search for cycles.
-/

set_option autoImplicit false

namespace ScriptHost

/-- Contents that an assignment enters: it passes on to their parts. All other contents are
replaced. -/
def Data.isEntered {ρ : Type} : Data ρ → Bool
  | .array _ | .record _ => true
  | .leaf _ | .dictionary _ => false

/-! ## What a scalar becomes -/

/-- Brought into its bounds, an integer lies in them. -/
theorem Bounds.holds_of_fit {b : Bounds Integer} {i j : Integer} (fit : b.fit i = .ok j) :
    b.holds j = true := by
  have ordered : b.least.toInt ≤ b.greatest.toInt := Int64.le_iff_toInt_le.mp b.ordered
  have low : b.holds b.least = true := by simp [Bounds.holds, Int64.le_iff_toInt_le, ordered]
  have high : b.holds b.greatest = true := by simp [Bounds.holds, Int64.le_iff_toInt_le, ordered]
  unfold Bounds.fit at fit
  split at fit
  · cases fit
    assumption
  · split at fit
    · cases fit
    · cases fit
      split <;> assumption
    · cases fit
      have width : 0 < b.width := by simp only [Bounds.width]; omega
      have lower := Int.emod_nonneg (i.toInt - b.least.toInt) (Int.ne_of_gt width)
      have upper := Int.emod_lt_of_pos (i.toInt - b.least.toInt) width
      have least := Integer.least_le_toInt b.least
      have greatest := Integer.toInt_le_greatest b.greatest
      simp only [Bounds.width] at lower upper ⊢
      simp only [Bounds.holds, Bool.and_eq_true, decide_eq_true_eq, Int64.le_iff_toInt_le]
      rw [Integer.toInt_ofInt_of_mem (by omega) (by omega)]
      omega

theorem Data.fits_of_not_integer {l : Leaf} (other : l.kind ≠ .integer) :
    (Data.leaf l : Data Handle).Fits := by
  rintro i b e
  cases e
  exact absurd rfl other

theorem Data.fits_unbounded (i : Integer) : (Data.leaf (.integer i none) : Data Handle).Fits := by
  rintro j b e
  cases e

/-- What a successful answer was made from. -/
theorem Except.ok_of_map {α β : Type} {x : Except Fault α} {f : α → β} {b : β}
    (run : x.map f = .ok b) : ∃ a, x = .ok a ∧ f a = b := by
  cases x with
  | ok a => exact ⟨a, rfl, by simpa [Except.map] using run⟩
  | error e => cases run

theorem Except.ok_of_bind {α β : Type} {x : Except Fault α} {f : α → Except Fault β} {b : β}
    (run : (x >>= f) = .ok b) : ∃ a, x = .ok a ∧ f a = .ok b := by
  cases x with
  | ok a => exact ⟨a, rfl, run⟩
  | error e => cases run

/-- A conversion keeps the kind and the bounds of its target, and yields a number within them. -/
theorem HeapM.keeps_of_convertInto {l m : Leaf} {d : Data Handle}
    (convert : HeapM.convertInto l d = .ok m) :
    (Data.leaf l : Data Handle).Keeps (.leaf m) ∧ (Data.leaf m : Data Handle).Fits := by
  cases l with
  | null =>
    cases convert
    exact ⟨trivial, Heap.fits_null⟩
  | boolean b =>
    obtain ⟨c, -, rfl⟩ := Except.ok_of_map convert
    exact ⟨⟨_, rfl, rfl⟩, Data.fits_of_not_integer (by simp [Leaf.kind])⟩
  | integer i b =>
    obtain ⟨given, -, rest⟩ := Except.ok_of_bind convert
    obtain ⟨j, fit, rest⟩ := Except.ok_of_bind rest
    cases rest
    refine ⟨⟨j, rfl⟩, ?_⟩
    rintro i c e
    cases e
    exact Bounds.holds_of_fit fit
  | real r b =>
    obtain ⟨given, -, rest⟩ := Except.ok_of_bind convert
    obtain ⟨q, -, rest⟩ := Except.ok_of_bind rest
    cases rest
    exact ⟨⟨q, rfl⟩, Data.fits_of_not_integer (by simp [Leaf.kind])⟩
  | string t =>
    obtain ⟨c, -, rfl⟩ := Except.ok_of_map convert
    exact ⟨⟨_, rfl, rfl⟩, Data.fits_of_not_integer (by simp [Leaf.kind])⟩
  | type t =>
    simp only [HeapM.convertInto] at convert
    split at convert
    · cases convert
      exact ⟨⟨_, rfl, rfl⟩, Data.fits_of_not_integer (by simp [Leaf.kind])⟩
    · cases convert
  | executable e =>
    simp only [HeapM.convertInto] at convert
    split at convert
    · cases convert
      exact ⟨⟨_, rfl, rfl⟩, Data.fits_of_not_integer (by simp [Leaf.kind])⟩
    · cases convert

namespace Heap

open Course

variable {typed : Prop} {P : Handle → Prop} {h : Heap} {target source : Handle}

/-! ## Sources -/

/-- What is assigned to the elements of an array are the parts of the source. -/
theorem items_of_source {d : Data Handle} {n : Nat} {items : List Handle}
    (run : HeapM.sourceItems d n = .ok items) : items = d.parts := by
  unfold HeapM.sourceItems at run
  split at run
  · split at run
    · cases run
      rfl
    · cases run
  · cases run

/-- What is assigned to the members of a structure are the parts of the source. -/
theorem members_of_source {d : Data Handle} {names : List String} {members : List (String × Handle)}
    (run : HeapM.sourceMembers d names = .ok members) : members.map (·.2) = d.parts := by
  unfold HeapM.sourceMembers at run
  split at run
  · split at run
    · cases run
      rfl
    · cases run
  · cases run

/-- Only a dictionary is assigned to a dictionary. -/
theorem dictionary_of_source {d : Data Handle} (run : HeapM.sourceDictionary d = .ok ()) :
    ∃ e, d = .dictionary e := by
  unfold HeapM.sourceDictionary at run
  split at run
  · exact ⟨_, rfl⟩
  · cases run

theorem mem_of_get {r : Record Handle} {name : String} {v : Handle} (run : r.get name = .ok v) :
    v ∈ r.values := by
  unfold Record.get at run
  split at run
  next found =>
    cases run
    exact List.mem_map_of_mem (Named.mem_of_find found)
  · cases run

/-! ## Taking over copies -/

/-- A cell takes over copies of the parts of a value. All of them are new, so none leads to the
cell. -/
theorem leads_adopt (region : h.Realm typed P) (owned : h.Owned P target)
    (keeps : ∀ {R d}, (h.data source).Matches R d → (h.data target).Keeps d) :
    (course typed P).Leads (HeapM.copyData source >>= HeapM.write target) h fun _ _ => True := by
  refine (leads_of_copying (yields_copyData (v := source) region)).bind
    fun d t held gone ⟨state, ext, matched⟩ => ?_
  have same : t.data target = h.data target := data_congr (ext.cell target owned.1)
  refine leads_write held (owned.changes gone) (fun p part => ?_) (same ▸ keeps matched)
    (fits_of_matches matched (region.formed.fits source))
    fun on => matched.homogeneous (fun p q copy => copy.kind) (region.homogeneous on source)
  obtain ⟨_, -, copy⟩ := matched.exists_part part
  refine ⟨⟨copy.made, state.fresh p copy.new⟩, fun reach => ?_⟩
  exact Nat.not_lt.mpr (state.new_of_reaches reach copy.new) owned.1

/-- The target takes over copies: a Null from any source, a dictionary from another one. -/
inductive Adopts (h : Heap) (target source : Handle) : Prop where
  | null (held : h.data target = .leaf .null)
  | dictionary {d e : Dictionary Handle} (held : h.data target = .dictionary d)
    (given : h.data source = .dictionary e)

/-- Copies are taken over where nothing is gone into. -/
theorem Adopts.unentered (adopts : h.Adopts target source) : (h.data target).isEntered = false := by
  cases adopts with
  | null held | dictionary held _ =>
    rw [held]
    rfl

/-! ## One level of an assignment -/

/-- Assigns to the member of a name. -/
def assignMember (part : Handle → Handle → HeapM Unit) (q : Record Handle) (s : String × Handle) :
    HeapM Unit := do
  part (← HeapM.of (q.get s.1)) s.2

/-- What is assigned to open contents. -/
def assignContents (part : Handle → Handle → HeapM Unit) (t r : Handle) (given : Data Handle) :
    Data Handle → HeapM Unit
  | .leaf .null => HeapM.copyData r >>= HeapM.write t
  | .leaf l => do HeapM.write t (.leaf (← HeapM.of (HeapM.convertInto l given)))
  | .array s => do
    (s.items.zip (← HeapM.of (HeapM.sourceItems given s.length))).forM fun p => part p.1 p.2
  | .dictionary _ => do
    HeapM.of (HeapM.sourceDictionary given)
    HeapM.copyData r >>= HeapM.write t
  | .record q => do (← HeapM.of (HeapM.sourceMembers given q.names)).forM (assignMember part q)

/-- An assignment to an unlocked target other than the source goes by the contents of the two. -/
theorem run_assignOnce {part : Handle → Handle → HeapM Unit} {t r : Handle}
    (unlocked : h.isLocked t = false) (other : t ≠ r) :
    HeapM.assignOnce part t r h = assignContents part t r (h.data r) (h.data t) h := by
  unfold HeapM.assignOnce
  rw [HeapM.bind_of_ok (HeapM.writable_of_unlocked unlocked), if_neg other]
  cases h.data t with
  | leaf l => cases l <;> rfl
  | _ => rfl

end Heap

/-- **One level of an assignment** takes over copies, or converts the source into a leaf, or passes
on to pairs of parts. -/
theorem Course.Leads.assignOnce {C : Course Heap} {h : Heap} {target source : Handle}
    {part : Handle → Handle → HeapM Unit} (held : C.holds h)
    (adopt : h.isLocked target = false → h.Adopts target source →
      C.Leads (HeapM.copyData source >>= HeapM.write target) h fun _ _ => True)
    (convert : ∀ l m, h.isLocked target = false →
      h.data target = .leaf l → l ≠ .null → HeapM.convertInto l (h.data source) = .ok m →
      C.Leads (HeapM.write target (.leaf m)) h fun _ _ => True)
    (each : (h.data target).isEntered = true → ∀ p ∈ h.parts target, ∀ q ∈ h.parts source, ∀ u,
      C.holds u → C.goes h u → C.Leads (part p q) u fun _ _ => True) :
    C.Leads (HeapM.assignOnce part target source) h fun _ _ => True := by
  unfold HeapM.assignOnce
  refine Leads.writableBind held fun unlocked => ?_
  split
  · exact .pure held trivial
  refine Leads.lookBind ?_
  cases contents : h.data target with
  | leaf l =>
    cases l with
    | null => exact adopt unlocked (.null contents)
    | _ => exact Leads.ofBind held fun m run => convert _ m unlocked contents (by simp) run
  | dictionary d =>
    refine Leads.ofBind held fun _ run => ?_
    obtain ⟨e, given⟩ := Heap.dictionary_of_source run
    exact adopt unlocked (.dictionary contents given)
  | array s =>
    refine Leads.ofBind held fun items run => Leads.forM held fun pair mem u state gone => ?_
    obtain ⟨left, right⟩ := List.of_mem_zip (a := pair.1) (b := pair.2) mem
    refine each (by rw [contents]; rfl) pair.1 ?_ pair.2 ?_ u state gone
    · simpa only [Heap.parts, contents, Data.parts] using left
    · simpa only [Heap.parts, Heap.items_of_source run] using right
  | record r =>
    refine Leads.ofBind held fun members run => Leads.forM held fun pair mem u state gone => ?_
    refine Leads.ofBind state fun w get => each (by rw [contents]; rfl) w ?_ pair.2 ?_ u state gone
    · simpa only [Heap.parts, contents, Data.parts] using Heap.mem_of_get get
    · simpa only [Heap.parts, Heap.members_of_source run] using List.mem_map_of_mem (f := (·.2)) mem

/-- A part is assigned to within the first cells again, or as the tree that it is. -/
theorem HeapM.assignWithin_succ (base n : Nat) :
    assignWithin base (n + 1) = assignOnce fun t v h =>
      (if t.index < base then assignWithin base n else assignTo h.levels) t v h := by
  have part : (fun t v => if t.index < base then assignWithin base n t v
        else look (·.levels) >>= (assignTo · t v)) =
      fun t v h => (if t.index < base then assignWithin base n else assignTo h.levels) t v h := by
    funext t v h
    split <;> rfl
  exact congrArg assignOnce part

/-- Ways to assign that are made of levels of an assignment. How many levels there are may depend on
anything. -/
inductive HeapM.Assigner : (Handle → Handle → HeapM Unit) → Prop where
  | stop : Assigner fun _ _ => return ()
  | once {part : Handle → Handle → HeapM Unit} (rest : Assigner part) : Assigner (assignOnce part)
  | choose {f : Handle → Handle → Heap → Handle → Handle → HeapM Unit}
    (each : ∀ t v h, Assigner (f t v h)) : Assigner fun t v h => f t v h t v h

namespace HeapM.Assigner

open Course

variable {h : Heap} {target source : Handle} {f : Handle → Handle → HeapM Unit}

/-- Assignment at so many levels. -/
theorem assignTo (n : Nat) : Assigner (HeapM.assignTo n) := by
  induction n with
  | zero => exact stop
  | succ n ih => exact once ih

/-- A way to assign to the first cells, with all levels of the heap for the others. -/
theorem within (first : Assigner f) (base : Nat) :
    Assigner fun t v h => (if t.index < base then f else HeapM.assignTo h.levels) t v h := by
  refine choose fun t _ h => ?_
  split
  · exact first
  · exact assignTo h.levels

/-- Assignment down to so many levels of the first cells. -/
theorem assignWithin (base n : Nat) : Assigner (HeapM.assignWithin base n) := by
  induction n with
  | zero => exact stop
  | succ n ih =>
    rw [assignWithin_succ]
    exact once (ih.within base)

/-- Assignment, with the levels of the heap that it starts in. -/
theorem assign : Assigner HeapM.assign :=
  choose (f := fun _ _ h => HeapM.assignWithin h.size h.levels) fun _ _ _ => assignWithin _ _

/-- **The steps of an assignment**, as a rule for courses. What is asked of a target and its source
has to pass on to their parts, and to outlast the assignments to other parts. -/
theorem leads {C : Course Heap} {I : Handle → Handle → Heap → Prop} (assigner : Assigner f)
    (adopt : ∀ {t v h}, C.holds h → I t v h → h.isLocked t = false → h.Adopts t v →
      C.Leads (copyData v >>= write t) h fun _ _ => True)
    (convert : ∀ {t v h l m}, C.holds h → I t v h → h.isLocked t = false → h.data t = .leaf l →
      l ≠ .null → convertInto l (h.data v) = .ok m → C.Leads (write t (.leaf m)) h fun _ _ => True)
    (descend : ∀ {t v p q h u}, C.holds h → I t v h → (h.data t).isEntered = true → p ∈ h.parts t →
      q ∈ h.parts v → C.holds u → C.goes h u → I p q u)
    (held : C.holds h) (inside : I target source h) :
    C.Leads (f target source) h fun _ _ => True := by
  induction assigner generalizing h target source with
  | stop => exact .pure held trivial
  | once _ ih =>
    exact Leads.assignOnce held (adopt held inside) (fun _ _ => convert held inside)
      fun entered p left q right u state gone =>
        ih state (descend held inside entered left right state gone)
  | choose _ ih => exact ih target source h held inside

end HeapM.Assigner

namespace Heap

open Course

variable {typed : Prop} {P : Handle → Prop} {h : Heap} {target source : Handle}
  {f : Handle → Handle → HeapM Unit}

/-! ## Assignment -/

/-- **Assignment keeps to the course**, with any number of levels. -/
theorem leads_assigner (assigner : HeapM.Assigner f) (region : h.Realm typed P)
    (owned : h.Owned P target) (given : h.Owned P source) :
    (course typed P).Leads (f target source) h fun _ _ => True := by
  refine assigner.leads (I := fun t v h => h.Owned P t ∧ h.Owned P v) ?_ ?_ ?_ region ⟨owned, given⟩
  · intro t v h region inside _ adopts
    refine leads_adopt region inside.1 fun {R d} matched => ?_
    cases adopts with
    | null held =>
      rw [held]
      trivial
    | dictionary held given =>
      rw [given] at matched
      cases matched
      rw [held]
      exact ⟨_, rfl⟩
  · intro t v h l m region inside _ held _ run
    obtain ⟨keeps, fits⟩ := HeapM.keeps_of_convertInto run
    exact leads_writeLeaf region inside.1 (held ▸ keeps) fits
  · intro t v p q h u region inside _ left right _ gone
    exact ⟨(region.part inside.1 left).changes gone, (region.part inside.2 right).changes gone⟩

/-- **Assignment** changes what is owned, and nothing else. -/
theorem leads_assign (region : h.Realm typed P) (owned : h.Owned P target)
    (given : h.Owned P source) :
    (course typed P).Leads (HeapM.assign target source) h fun _ _ => True :=
  leads_assigner .assign region owned given

/-! ## Stepping -/

/-- Reading the amount, computing the next value, and assigning it. -/
theorem leads_assignLeaf {l : Leaf} (region : h.Realm typed P) (owned : h.Owned P target)
    (fits : (Data.leaf l : Data Handle).Fits) :
    (course typed P).Leads (HeapM.newLeaf l >>= HeapM.assign target) h fun _ _ => True :=
  (leads_newLeaf region fits).bind fun _ _ state gone result =>
    leads_assign state (owned.changes gone) result.1

/-- A step assigns numbers, at all levels. -/
theorem leads_stepTo {up : Bool} {amount : Handle} {n : Nat} (region : h.Realm typed P)
    (owned : h.Owned P target) :
    (course typed P).Leads (HeapM.stepTo up amount n target) h fun _ _ => True := by
  induction n generalizing h target with
  | zero => exact .pure region trivial
  | succ n ih =>
    unfold HeapM.stepTo
    refine Leads.lookBind ?_
    cases held : h.data target with
    | leaf l =>
      cases l with
      | boolean _ | integer _ _ =>
        refine Leads.askBind region fun _ _ => Leads.ofBind region fun _ _ => ?_
        refine Leads.askBind region fun _ _ => Leads.ofBind region fun next _ => ?_
        exact leads_assignLeaf region owned (Data.fits_unbounded next)
      | real _ _ | string _ =>
        refine Leads.askBind region fun _ _ => Leads.askBind region fun _ _ => ?_
        exact leads_assignLeaf region owned (Data.fits_of_not_integer (by simp [Leaf.kind]))
      | _ => exact .throw region
    | array s =>
      refine Leads.forM region fun item mem t state gone =>
        ih state (Owned.changes (region.part owned ?_) gone)
      simpa only [parts, held, Data.parts] using mem
    | _ => exact .throw region

/-- A step yields nothing. -/
theorem sound_step {up : Bool} {amount : Handle} :
    HeapM.Sound (HeapM.step up target amount) [target, amount] fun _ => [] := by
  intro typed P h region given
  exact (leads_stepTo region (given target (by simp))).weaken fun _ _ _ _ _ => by simp

end Heap

end ScriptHost
