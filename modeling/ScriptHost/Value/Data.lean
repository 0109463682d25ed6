import ScriptHost.Container.Dictionary
import ScriptHost.Container.Record
import ScriptHost.Container.Sequence
import ScriptHost.Value.Callable

/-!
# The contents of a value

`Data ρ` is what a value holds, with `ρ` standing for what it holds its parts by. In the heap the
parts are handles; in an `Image` they are images, and a value is a tree. What treats all parts alike
is said once, for every `ρ`: `Data.parts` lists them in order, `Data.map` and `Data.mapM` replace
them and keep all else (`parts_map`).

A leaf has no parts. An executable is a leaf: its code is text and holds no values.
-/

set_option autoImplicit false

namespace ScriptHost

/-- Contents without parts. -/
inductive Leaf where
  | null
  | type (t : TypeDesc)
  | boolean (b : Bool)
  | integer (i : Integer) (bounds : Option (Bounds Integer))
  | real (r : Double) (bounds : Option (Bounds Float))
  | string (s : String)
  | executable (e : Executable)

/-- The contents of a value. -/
inductive Data (ρ : Type) where
  | leaf (l : Leaf)
  | array (s : Sequence ρ)
  | dictionary (d : Dictionary ρ)
  | record (r : Record ρ)

/-- The kind of a leaf. -/
def Leaf.kind : Leaf → Kind
  | .null => .null
  | .type _ => .type
  | .boolean _ => .boolean
  | .integer _ _ => .integer
  | .real _ _ => .real
  | .string _ => .string
  | .executable _ => .executable

namespace Data

variable {ρ σ : Type}

/-- The kind of value that the contents make. -/
def kind : Data ρ → Kind
  | .leaf l => l.kind
  | .array _ => .array
  | .dictionary _ => .dictionary
  | .record _ => .record

/-- The parts in order. -/
def parts : Data ρ → List ρ
  | .leaf _ => []
  | .array s => s.items
  | .dictionary d => d.values
  | .record r => r.values

/-- The same contents with other parts. -/
def map (f : ρ → σ) : Data ρ → Data σ
  | .leaf l => .leaf l
  | .array s => .array (s.map f)
  | .dictionary d => .dictionary (d.map f)
  | .record r => .record (r.map f)

/-- The same contents with other parts, made one by one in order. -/
def mapM {m : Type → Type} [Monad m] (f : ρ → m σ) : Data ρ → m (Data σ)
  | .leaf l => return .leaf l
  | .array s => return .array (← s.mapM f)
  | .dictionary d => return .dictionary (← d.mapM f)
  | .record r => return .record (← r.mapM f)

/-- The type that the contents are, if they are one. -/
def asType? : Data ρ → Option TypeDesc
  | .leaf (.type t) => some t
  | _ => none

/-- The executable that the contents are, if they are one. -/
def asExecutable? : Data ρ → Option Executable
  | .leaf (.executable e) => some e
  | _ => none

/-- The arities of an executable, and none otherwise. -/
def arities (d : Data ρ) : List Nat := (d.asExecutable?.map Executable.arities).getD []

@[simp] theorem kind_map (f : ρ → σ) (d : Data ρ) : (d.map f).kind = d.kind := by cases d <;> rfl

@[simp] theorem parts_map (f : ρ → σ) (d : Data ρ) : (d.map f).parts = d.parts.map f := by
  cases d <;> simp [map, parts, Sequence.map, Dictionary.map, Dictionary.values, Record.map,
    Record.values]

/-- **Congruence.** Maps that agree on the parts of contents agree on the contents. -/
theorem map_congr {f g : ρ → σ} {d : Data ρ} (h : ∀ p ∈ d.parts, f p = g p) :
    d.map f = d.map g := by
  cases d with
  | leaf l => rfl
  | array s =>
    have agree : s.items.map f = s.items.map g := List.map_congr_left h
    simp only [map, Sequence.map, agree]
  | dictionary d =>
    simp only [map, Dictionary.map, Data.dictionary.injEq, Dictionary.mk.injEq, List.map_inj_left,
      Prod.mk.injEq, true_and]
    exact fun e he => h e.2 (List.mem_map_of_mem he)
  | record r =>
    simp only [map, Record.map, Data.record.injEq, Record.mk.injEq, List.map_inj_left,
      Prod.mk.injEq, true_and]
    exact fun e he => h e.2 (List.mem_map_of_mem he)

end Data

end ScriptHost
