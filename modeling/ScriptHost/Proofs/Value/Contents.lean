import Mathlib.Data.List.Induction
import Mathlib.Data.List.Nodup
import ScriptHost.Proofs.Course
import ScriptHost.Value.Image

/-!
# Contents part by part

`Data.Matches R d e` says that two contents differ in their parts only, and that the parts are
related by `R` in order. It is what replacing the parts one by one comes to (`Data.mapM_yields`),
where one part can be replaced in two ways when it stands in two places. Contents that match are
equal once their parts are mapped to the same things (`Matches.map_eq`).

`Image.unlocked` is an image with all locks taken off.
-/

set_option autoImplicit false

namespace ScriptHost

/-! ## Records of given members -/

namespace Record

variable {ρ : Type} {members : List (String × ρ)}

/-- Members are put in one by one, the last one last. -/
theorem members_ofMembers_append (members : List (String × ρ)) (last : String × ρ) :
    (ofMembers (members ++ [last])).members =
      Named.put last.1 last.2 (ofMembers members).members := by
  simp [ofMembers, List.foldl_append]

/-- Only given members are members. -/
theorem mem_members_ofMembers {m : String × ρ} (mem : m ∈ (ofMembers members).members) :
    m ∈ members := by
  induction members using List.reverseRecOn with
  | nil => exact mem
  | append_singleton ms last ih =>
    rw [members_ofMembers_append] at mem
    obtain rfl | mem := Named.mem_put mem
    · simp
    · simp [ih mem]

/-- A record of given members holds nothing else. -/
theorem mem_ofMembers {v : ρ} (mem : v ∈ (ofMembers members).values) : v ∈ members.map (·.2) := by
  obtain ⟨m, inside, rfl⟩ := List.mem_map.mp mem
  exact List.mem_map_of_mem (mem_members_ofMembers inside)

/-- **No name twice**, whatever the members are. -/
theorem nodup_names_ofMembers (members : List (String × ρ)) : (ofMembers members).names.Nodup := by
  induction members using List.reverseRecOn with
  | nil => exact List.nodup_nil
  | append_singleton ms last ih =>
    rw [names, members_ofMembers_append, Named.names_put]
    split
    · exact ih
    next fresh => exact List.nodup_append'.mpr ⟨ih, List.nodup_singleton _, by simpa using fresh⟩

/-- Members with different names are the members. -/
theorem members_ofMembers (distinct : (members.map (·.1)).Nodup) :
    (ofMembers members).members = members := by
  induction members using List.reverseRecOn with
  | nil => rfl
  | append_singleton ms last ih =>
    obtain ⟨earlier, -, apart⟩ := List.nodup_append'.mp (List.map_append ▸ distinct)
    rw [members_ofMembers_append, ih earlier]
    exact Named.put_of_new (fun there => apart there (by simp)) last.2

end Record

namespace Data

variable {ρ σ τ : Type}

theorem map_map (f : ρ → σ) (g : σ → τ) (d : Data ρ) :
    (d.map f).map g = d.map fun p => g (f p) := by
  cases d <;> simp [map, Sequence.map, Dictionary.map, Record.map, Function.comp_def]

theorem map_id (d : Data ρ) : d.map (fun p => p) = d := by
  cases d <;> simp [map, Sequence.map, Dictionary.map, Record.map]

/-- Contents that differ in their parts only, with related parts in the same places. -/
inductive Matches (R : ρ → σ → Prop) : Data ρ → Data σ → Prop where
  | leaf (l : Leaf) : Matches R (.leaf l) (.leaf l)
  | array (s : Sequence ρ) (items : List σ) (each : List.Forall₂ R s.items items) :
      Matches R (.array s) (.array ⟨s.start, items, s.filled, s.element, s.policy⟩)
  | dictionary (d : Dictionary ρ) (entries : List (Key × σ))
      (each : List.Forall₂ (fun e f => e.1 = f.1 ∧ R e.2 f.2) d.entries entries) :
      Matches R (.dictionary d) (.dictionary ⟨entries⟩)
  | record (r : Record ρ) (members : List (String × σ))
      (each : List.Forall₂ (fun e f => e.1 = f.1 ∧ R e.2 f.2) r.members members) :
      Matches R (.record r) (.record ⟨r.type, members⟩)

/-- Pairs that are related and have equal names map to equal pairs. -/
theorem map_eq_of_pairs {κ : Type} {R : ρ → σ → Prop} {f : ρ → τ} {g : σ → τ}
    (agree : ∀ x y, R x y → f x = g y) {es : List (κ × ρ)} {fs : List (κ × σ)}
    (each : List.Forall₂ (fun e f => e.1 = f.1 ∧ R e.2 f.2) es fs) :
    es.map (fun (k, x) => (k, f x)) = fs.map fun (k, y) => (k, g y) := by
  induction each with
  | nil => rfl
  | cons first _ ih => simp only [List.map_cons, ih, first.1, agree _ _ first.2]

theorem map_eq_of_forall₂ {R : ρ → σ → Prop} {f : ρ → τ} {g : σ → τ}
    (agree : ∀ x y, R x y → f x = g y) {xs : List ρ} {ys : List σ} (each : List.Forall₂ R xs ys) :
    xs.map f = ys.map g := by
  induction each with
  | nil => rfl
  | cons first _ ih => simp only [List.map_cons, ih, agree _ _ first]

/-- A related element on the right has one on the left. -/
theorem exists_of_forall₂ {R : ρ → σ → Prop} {xs : List ρ} {ys : List σ}
    (each : List.Forall₂ R xs ys) {y : σ} (mem : y ∈ ys) : ∃ x ∈ xs, R x y := by
  induction each with
  | nil => cases mem
  | @cons x _ _ _ first _ ih =>
    obtain rfl | mem := List.mem_cons.mp mem
    · exact ⟨x, by simp, first⟩
    · obtain ⟨z, inside, related⟩ := ih mem
      exact ⟨z, by simp [inside], related⟩

namespace Matches

variable {R : ρ → σ → Prop} {d : Data ρ} {e : Data σ}

/-- Contents that match have the same images if their parts do. -/
theorem map_eq {f : ρ → τ} {g : σ → τ} (agree : ∀ x y, R x y → f x = g y)
    (matched : Matches R d e) : d.map f = e.map g := by
  cases matched with
  | leaf l => rfl
  | array s items each => simp only [map, Sequence.map, map_eq_of_forall₂ agree each]
  | dictionary d entries each => simp only [map, Dictionary.map, map_eq_of_pairs agree each]
  | record r members each => simp only [map, Record.map, map_eq_of_pairs agree each]

/-- Each part has its counterpart. -/
theorem exists_part (matched : Matches R d e) {q : σ} (part : q ∈ e.parts) :
    ∃ p ∈ d.parts, R p q := by
  cases matched with
  | leaf l => cases part
  | array s items each => exact exists_of_forall₂ each part
  | dictionary d entries each =>
    obtain ⟨f, mem, rfl⟩ := List.mem_map.mp part
    obtain ⟨x, inside, related⟩ := exists_of_forall₂ each mem
    exact ⟨x.2, List.mem_map_of_mem inside, related.2⟩
  | record r members each =>
    obtain ⟨f, mem, rfl⟩ := List.mem_map.mp part
    obtain ⟨x, inside, related⟩ := exists_of_forall₂ each mem
    exact ⟨x.2, List.mem_map_of_mem inside, related.2⟩

theorem of_leaf {l : Leaf} (matched : Matches R d (.leaf l)) : d = .leaf l := by
  cases matched
  rfl

end Matches

/-- Named parts replaced one by one, under their names. -/
theorem mapM_pairs_yields {κ ω ε : Type} {C : Course ω} {M : ρ → σ → ω → Prop}
    {f : ρ → EStateM ε ω σ} {s : ω} {es : List (κ × ρ)}
    (lasting : ∀ a b t u, C.holds t → M a b t → C.goes t u → M a b u) (held : C.holds s)
    (each : ∀ e ∈ es, ∀ t, C.holds t → C.goes s t → C.Yields (f e.2) t (M e.2)) :
    C.Yields (es.mapM fun (k, p) => do return (k, ← f p)) s fun fs t =>
      List.Forall₂ (fun e f => e.1 = f.1 ∧ M e.2 f.2 t) es fs := by
  refine Course.Yields.mapM (M := fun (e : κ × ρ) (f : κ × σ) t => e.1 = f.1 ∧ M e.2 f.2 t)
    (fun _ _ _ _ held result gone => ⟨result.1, lasting _ _ _ _ held result.2 gone⟩) held
      fun e mem t held gone => ?_
  exact (each e mem t held gone).bind fun q u held _ result => .pure held ⟨rfl, result⟩

/-- **Parts one by one.** Where a step can be made for every part, all parts can be replaced, and
the new contents match the old ones. -/
theorem mapM_yields {ω ε : Type} {C : Course ω} {M : ρ → σ → ω → Prop} {f : ρ → EStateM ε ω σ}
    {s : ω} (d : Data ρ) (lasting : ∀ a b t u, C.holds t → M a b t → C.goes t u → M a b u)
    (held : C.holds s)
    (each : ∀ p ∈ d.parts, ∀ t, C.holds t → C.goes s t → C.Yields (f p) t (M p)) :
    C.Yields (d.mapM f) s fun e t => Matches (fun p q => M p q t) d e := by
  cases d with
  | leaf l => exact .pure held (.leaf l)
  | array a =>
    have items := (Course.Yields.mapM lasting held each).bind (f := fun items =>
      (Pure.pure ⟨a.start, items, a.filled, a.element, a.policy⟩ : EStateM ε ω (Sequence σ)))
      (R := fun b t => Matches (fun p q => M p q t) (.array a) (.array b))
      fun items t held _ each => .pure held (.array a items each)
    exact items.bind fun b t held _ matched => .pure held matched
  | dictionary d =>
    have entries := (mapM_pairs_yields lasting held fun e mem =>
      each e.2 (List.mem_map_of_mem mem)).bind
      (f := fun entries => (Pure.pure ⟨entries⟩ : EStateM ε ω (Dictionary σ)))
      (R := fun b t => Matches (fun p q => M p q t) (.dictionary d) (.dictionary b))
      fun entries t held _ each => .pure held (.dictionary d entries each)
    exact entries.bind fun b t held _ matched => .pure held matched
  | record r =>
    have members := (mapM_pairs_yields lasting held fun e mem =>
      each e.2 (List.mem_map_of_mem mem)).bind
      (f := fun members => (Pure.pure ⟨r.type, members⟩ : EStateM ε ω (Record σ)))
      (R := fun b t => Matches (fun p q => M p q t) (.record r) (.record b))
      fun members t held _ each => .pure held (.record r members each)
    exact members.bind fun b t held _ matched => .pure held matched

/-- Steps for named parts that agree. -/
theorem mapM_pairs_congr {κ ω ε : Type} {C : Course ω} {f g : ρ → EStateM ε ω σ} {s : ω}
    {es : List (κ × ρ)} (held : C.holds s)
    (each : ∀ e ∈ es, ∀ t, C.holds t → C.goes s t → f e.2 t = g e.2 t ∧
      C.Leads (g e.2) t fun _ _ => True) :
    (es.mapM (fun (k, p) => do return (k, ← f p)) : EStateM ε ω (List (κ × σ))) s =
      (es.mapM (fun (k, p) => do return (k, ← g p)) : EStateM ε ω (List (κ × σ))) s := by
  refine Course.mapM_congr held fun e mem t held gone => ?_
  obtain ⟨same, leads⟩ := each e mem t held gone
  refine ⟨?_, leads.bind fun _ _ held _ _ => .pure held trivial⟩
  simp only [Bind.bind, EStateM.bind, same]

/-- Steps for the parts that agree, in whatever states the steps before them leave. -/
theorem mapM_congr {ω ε : Type} {C : Course ω} {f g : ρ → EStateM ε ω σ} {s : ω} (d : Data ρ)
    (held : C.holds s)
    (each : ∀ p ∈ d.parts, ∀ t, C.holds t → C.goes s t → f p t = g p t ∧
      C.Leads (g p) t fun _ _ => True) : d.mapM f s = d.mapM g s := by
  cases d with
  | leaf l => rfl
  | array a =>
    have items : a.items.mapM f s = a.items.mapM g s := Course.mapM_congr held each
    simp only [mapM, Sequence.mapM, Bind.bind, EStateM.bind, items]
  | dictionary d =>
    have entries :=
      mapM_pairs_congr held fun e (mem : e ∈ d.entries) => each e.2 (List.mem_map_of_mem mem)
    simp only [mapM, Dictionary.mapM, Bind.bind, EStateM.bind] at entries ⊢
    rw [entries]
  | record r =>
    have members :=
      mapM_pairs_congr held fun e (mem : e ∈ r.members) => each e.2 (List.mem_map_of_mem mem)
    simp only [mapM, Record.mapM, Bind.bind, EStateM.bind] at members ⊢
    rw [members]

end Data

namespace Image

mutual

/-- An image with all locks taken off. -/
def unlocked : Image → Image
  | .node _ (.leaf l) => .node false (.leaf l)
  | .node _ (.array ⟨start, items, filled, element, policy⟩) =>
    .node false (.array ⟨start, unlockedItems items, filled, element, policy⟩)
  | .node _ (.dictionary ⟨entries⟩) => .node false (.dictionary ⟨unlockedEntries entries⟩)
  | .node _ (.record ⟨type, members⟩) => .node false (.record ⟨type, unlockedMembers members⟩)

/-- Elements with all locks taken off. -/
def unlockedItems : List Image → List Image
  | [] => []
  | i :: is => i.unlocked :: unlockedItems is

/-- Entries with all locks taken off. -/
def unlockedEntries : List (Key × Image) → List (Key × Image)
  | [] => []
  | (k, i) :: es => (k, i.unlocked) :: unlockedEntries es

/-- Members with all locks taken off. -/
def unlockedMembers : List (String × Image) → List (String × Image)
  | [] => []
  | (n, i) :: ms => (n, i.unlocked) :: unlockedMembers ms

end

theorem unlockedItems_eq (is : List Image) : unlockedItems is = is.map unlocked := by
  induction is with
  | nil => rfl
  | cons i is ih => simp only [unlockedItems, ih, List.map_cons]

theorem unlockedEntries_eq (es : List (Key × Image)) :
    unlockedEntries es = es.map fun (k, i) => (k, i.unlocked) := by
  induction es with
  | nil => rfl
  | cons e es ih => simp only [unlockedEntries, ih, List.map_cons]

theorem unlockedMembers_eq (ms : List (String × Image)) :
    unlockedMembers ms = ms.map fun (n, i) => (n, i.unlocked) := by
  induction ms with
  | nil => rfl
  | cons m ms ih => simp only [unlockedMembers, ih, List.map_cons]

/-- Locks are taken off at the top and in all parts. -/
theorem unlocked_node (locked : Bool) (d : Data Image) :
    (node locked d).unlocked = .node false (d.map unlocked) := by
  cases d with
  | leaf l => rfl
  | array s => simp only [unlocked, unlockedItems_eq, Data.map, Sequence.map]
  | dictionary d => simp only [unlocked, unlockedEntries_eq, Data.map, Dictionary.map]
  | record r => simp only [unlocked, unlockedMembers_eq, Data.map, Record.map]

/-- An image with its locks as they are, or with all of them taken off. -/
def withLocks (keep : Bool) (i : Image) : Image := if keep then i else i.unlocked

/-- Locks are kept or dropped at all levels alike. -/
theorem withLocks_node (keep locked : Bool) (d : Data Image) :
    (node locked d).withLocks keep = .node (keep && locked) (d.map (withLocks keep)) := by
  cases keep with
  | false => exact unlocked_node locked d
  | true =>
    have same : (withLocks true) = fun i => i := rfl
    rw [same, Data.map_id]
    rfl

end Image

end ScriptHost
