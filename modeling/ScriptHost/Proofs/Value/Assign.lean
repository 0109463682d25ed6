import ScriptHost.Heap.Assign
import ScriptHost.Proofs.Value.Contents

/-!
# Assignment of images

`Image.assign` is assignment on trees, where there are no cells: an image is assigned to another
one, which becomes what the target is then. A locked target refuses. A Null takes on the whole
source, and a dictionary another dictionary, without its locks. A scalar is given the source
converted to its kind and brought into its bounds, a type or an executable another one. An array is
assigned to element by element and a structure member by member in the order of the source, as far
as the first fault; what has been assigned before it stays.

The recursion is on the source. What is assigned to contents that are not entered is said by
`Image.receive`, for any source, and what to do with those that are is left to it.
-/

set_option autoImplicit false

namespace ScriptHost

/-- A view of the state in which a step ends, in place of the state. -/
def viewed {ε σ τ α : Type} (view : σ → τ) : EStateM.Result ε σ α → EStateM.Result ε τ α
  | .ok a s => .ok a (view s)
  | .error e s => .error e (view s)

section Viewed

variable {ε σ τ υ α : Type}

@[simp] theorem viewed_ok (f : σ → τ) (a : α) (s : σ) :
    viewed f (.ok a s : EStateM.Result ε σ α) = .ok a (f s) := rfl

@[simp] theorem viewed_error (f : σ → τ) (e : ε) (s : σ) :
    viewed f (.error e s : EStateM.Result ε σ α) = .error e (f s) := rfl

theorem viewed_viewed (f : σ → τ) (g : τ → υ) (r : EStateM.Result ε σ α) :
    viewed g (viewed f r) = viewed (fun s => g (f s)) r := by
  cases r <;> rfl

/-- Views that agree on the state in which a step ends. -/
theorem viewed_congr {f g : σ → τ} {m : EStateM ε σ α} {s : σ}
    (same : f (endState m s) = g (endState m s)) : viewed f (m s) = viewed g (m s) := by
  cases ends : m s with
  | ok a t => simp only [endState, ends] at same; simp only [viewed, same]
  | error e t => simp only [endState, ends] at same; simp only [viewed, same]

end Viewed

/-- What a scalar, a type or an executable becomes when it is given contents. -/
def Leaf.given {ρ : Type} : Leaf → Data ρ → Except Fault Leaf
  | .boolean _, d => d.asBoolean.map .boolean
  | .integer _ none, d => d.asInteger.map (.integer · none)
  | .integer _ (some b), d => do return .integer (← b.fit (← d.asInteger)) (some b)
  | .real _ none, d => d.asReal.map (.real · none)
  | .real _ (some b), d => do return .real (.ofFloat (← b.fitReal (← d.asReal).toFloat)) (some b)
  | .string _, d => d.asString.map .string
  | .type _, .leaf (.type t) => .ok (.type t)
  | .executable _, .leaf (.executable e) => .ok (.executable e)
  | l, d => .error (.cannotCast d.kind.name l.kind.name)

/-- A step over an image. -/
abbrev ImageM := EStateM Fault Image

namespace Image

/-- Refuses contents of another kind. -/
def refuse (source : Kind) : EStateM Fault (Data Image) Unit :=
  fun d => .error (.cannotCast source.name d.kind.name) d

/-- An unlocked leaf with another one in its place, if there is one. -/
def replace (l : Leaf) : Except Fault Leaf → EStateM.Result Fault Image Unit
  | .ok m => .ok () (.node false (.leaf m))
  | .error f => .error f (.node false (.leaf l))

/-- Assigns a source to an image; `enter` assigns it to an array or a structure. -/
def receive (source : Image) (enter : EStateM Fault (Data Image) Unit) : ImageM Unit
  | .node true d => .error .valueLocked (.node true d)
  | .node false (.leaf .null) => .ok () source.unlocked
  | .node false (.leaf l) => replace l (l.given source.data)
  | .node false (.dictionary d) =>
    if source.kind = .dictionary then .ok () source.unlocked
    else viewed (.node false) (refuse source.kind (.dictionary d))
  | .node false d => viewed (.node false) (enter d)

theorem receive_leaf {source : Image} {enter : EStateM Fault (Data Image) Unit} {l : Leaf}
    (other : l ≠ .null) :
    receive source enter (.node false (.leaf l)) = replace l (l.given source.data) := by
  cases l with
  | null => exact absurd rfl other
  | _ => rfl

mutual

/-- Assigns an image to another one. -/
def assign : Image → ImageM Unit
  | .node locked d => receive (.node locked d) (enter d)

/-- Assigns contents to an array or a structure. -/
def enter : Data Image → EStateM Fault (Data Image) Unit
  | .array ⟨_, items, _, _, _⟩ => fun
    | .array s =>
      if items.length = s.items.length then
        viewed (fun is => .array { s with items := is }) (assignItems items s.items)
      else .error (.lengthsDiffer items.length s.items.length) (.array s)
    | d => refuse .array d
  | .record ⟨_, members⟩ => fun
    | .record r =>
      if members.length = r.members.length ∧
        members.all (fun m => (r.members.map (·.1)).contains m.1) then
        viewed (fun ms => .record { r with members := ms }) (assignMembers members r.members)
      else .error .membersDiffer (.record r)
    | d => refuse .record d
  | d => refuse d.kind

/-- Assigns images to others, one after the other. -/
def assignItems : List Image → EStateM Fault (List Image) Unit
  | [] => fun ts => .ok () ts
  | i :: is => fun
    | [] => .ok () []
    | t :: ts =>
      match i.assign t with
      | .ok _ t => viewed (t :: ·) (assignItems is ts)
      | .error f t => .error f (t :: ts)

/-- Assigns named images to those of the same names, one after the other. -/
def assignMembers : List (String × Image) → EStateM Fault (List (String × Image)) Unit
  | [] => fun ts => .ok () ts
  | (name, i) :: ms => fun ts =>
    match Named.find name ts with
    | none => .error (.noSuchMember name) ts
    | some t =>
      match i.assign t with
      | .ok _ t => assignMembers ms (Named.put name t ts)
      | .error f t => .error f (Named.put name t ts)

end

section Enter

variable {ρ : Type} (f : ρ → Image)

/-- An array enters one of its length. -/
theorem enter_array (q s : Sequence ρ) :
    enter (.array (q.map f)) (.array (s.map f)) =
    if q.length = s.length then
      viewed (fun is => .array { s.map f with items := is })
        (assignItems (q.items.map f) (s.items.map f))
    else .error (.lengthsDiffer q.length s.length) (.array (s.map f)) := by
  have lengths : (q.items.map f).length = q.length ∧ (s.items.map f).length = s.length :=
    ⟨List.length_map .., List.length_map ..⟩
  rw [← lengths.1, ← lengths.2]
  rfl

/-- A structure enters one with its names. -/
theorem enter_record (q r : Record ρ) : enter (.record (q.map f)) (.record (r.map f)) =
    if q.length = r.names.length ∧ q.names.all r.names.contains then
      viewed (fun ms => .record { r.map f with members := ms })
        (assignMembers (q.members.map fun m => (m.1, f m.2)) (r.members.map fun m => (m.1, f m.2)))
    else .error .membersDiffer (.record (r.map f)) := by
  have same : ((q.map f).members.length = (r.map f).members.length ∧
      (q.map f).members.all (fun m => ((r.map f).members.map (·.1)).contains m.1) = true) ↔
      (q.length = r.names.length ∧ q.names.all r.names.contains = true) := by
    simp [Record.map, Record.length, Record.names, Function.comp_def]
  exact if_congr same rfl rfl

end Enter

end Image

/-! ## Conversions -/

namespace Data

variable {ρ σ : Type} (f : ρ → σ) (d : Data ρ)

/-- Conversions look at scalars, and at the kind of all else. -/
theorem asBoolean_map : (d.map f).asBoolean = d.asBoolean := by
  cases d with
  | leaf l => cases l <;> rfl
  | _ => rfl

theorem asInteger_map : (d.map f).asInteger = d.asInteger := by
  cases d with
  | leaf l => cases l <;> rfl
  | _ => rfl

theorem asReal_map : (d.map f).asReal = d.asReal := by
  cases d with
  | leaf l => cases l <;> rfl
  | _ => rfl

theorem asString_map : (d.map f).asString = d.asString := by
  cases d with
  | leaf l => cases l <;> rfl
  | _ => rfl

end Data

/-- **Conversion.** A leaf becomes what it does when it is given the image of its source. -/
theorem Leaf.given_map {l : Leaf} (other : l ≠ .null) (f : Handle → Image) (d : Data Handle) :
    l.given (d.map f) = HeapM.convertInto l d := by
  cases l with
  | null => exact absurd rfl other
  | boolean b => simp only [given, HeapM.convertInto, Data.asBoolean_map]
  | integer i b =>
    cases b with
    | none =>
      simp only [given, HeapM.convertInto, Data.asInteger_map]
      cases d.asInteger <;> rfl
    | some b => simp only [given, HeapM.convertInto, HeapM.fitInteger, Data.asInteger_map]
  | real r b =>
    cases b with
    | none =>
      simp only [given, HeapM.convertInto, Data.asReal_map]
      cases d.asReal <;> rfl
    | some b =>
      simp only [given, HeapM.convertInto, HeapM.fitReal, Data.asReal_map]
      cases d.asReal with
      | error f => rfl
      | ok x => cases fit : b.fitReal x.toFloat <;> simp [Bind.bind, Except.bind, Except.map, fit]
  | string t => simp only [given, HeapM.convertInto, Data.asString_map]
  | type t =>
    cases d with
    | leaf m => cases m <;> rfl
    | _ => rfl
  | executable e =>
    cases d with
    | leaf m => cases m <;> rfl
    | _ => rfl

end ScriptHost
