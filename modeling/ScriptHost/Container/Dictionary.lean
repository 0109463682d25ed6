import ScriptHost.Kind
import ScriptHost.Number.Decimal
import ScriptHost.Number.Double

/-!
# Keys and dictionaries

A dictionary holds values under scalar keys in the order in which the keys came in. A key keeps its
place, and the spelling it first had, for as long as it stays: putting a value under a present key
replaces the value only. Two keys are the same when they are of one kind with one payload; reals are
told apart by their bits, with negative zero counted as zero.
-/

set_option autoImplicit false

namespace ScriptHost

/-- A scalar that values are kept under. -/
inductive Key where
  | boolean (b : Bool)
  | integer (i : Integer)
  | real (r : Double)
  | string (s : String)

namespace Key

/-- What tells real keys apart: the bits, with negative zero counted as zero. Adding zero does
that. -/
def realBits (r : Double) : UInt64 := (r + 0).bits

/-- Whether two keys are the same. -/
def same : Key → Key → Bool
  | .boolean a, .boolean b => a == b
  | .integer a, .integer b => a == b
  | .real a, .real b => realBits a == realBits b
  | .string a, .string b => a == b
  | _, _ => false

/-- The kind of value that a key is. -/
def kind : Key → Kind
  | .boolean _ => .boolean
  | .integer _ => .integer
  | .real _ => .real
  | .string _ => .string

/-- A key as text; a string key stands in quotes. -/
def text : Key → String
  | .boolean true => "True"
  | .boolean false => "False"
  | .integer i => i.text
  | .real r => Decimal.general r.toFloat
  | .string s => "\"" ++ s ++ "\""

@[simp] theorem same_self (k : Key) : k.same k = true := by cases k <;> simp [same]

theorem same_symm (a b : Key) : a.same b = b.same a := by
  cases a <;> cases b <;> simp [same, Bool.beq_comm]

theorem same_trans {a b c : Key} (ab : a.same b = true) (bc : b.same c = true) :
    a.same c = true := by
  cases a <;> cases b <;> cases c <;> simp_all [same]

end Key

/-- Values under keys, in the order in which the keys came in. -/
structure Dictionary (ρ : Type) where
  entries : List (Key × ρ)

namespace Dictionary

variable {ρ σ : Type}

/-- The dictionary without entries. -/
def empty : Dictionary ρ := ⟨[]⟩

/-- The number of entries. -/
def length (d : Dictionary ρ) : Nat := d.entries.length

/-- The keys in order, as they were first spelled. -/
def keys (d : Dictionary ρ) : List Key := d.entries.map (·.1)

/-- The values in the order of their keys. -/
def values (d : Dictionary ρ) : List ρ := d.entries.map (·.2)

/-- The value of the first entry under a key. -/
def find (k : Key) : List (Key × ρ) → Option ρ
  | [] => none
  | (k', v) :: es => if k'.same k then some v else find k es

/-- The entries with a value put under a key: in its place, or at the end. -/
def put (k : Key) (v : ρ) : List (Key × ρ) → List (Key × ρ)
  | [] => [(k, v)]
  | (k', v') :: es => if k'.same k then (k', v) :: es else (k', v') :: put k v es

/-- The entries without the first one under a key. -/
def drop (k : Key) : List (Key × ρ) → List (Key × ρ)
  | [] => []
  | (k', v) :: es => if k'.same k then es else (k', v) :: drop k es

/-- The value under a key. -/
def get? (d : Dictionary ρ) (k : Key) : Option ρ := find k d.entries

/-- Puts a value under a key. -/
def insert (d : Dictionary ρ) (k : Key) (v : ρ) : Dictionary ρ := ⟨put k v d.entries⟩

/-- Removes the entry under a key; the others keep their order. -/
def erase (d : Dictionary ρ) (k : Key) : Dictionary ρ := ⟨drop k d.entries⟩

/-- The same dictionary with its values replaced one by one. -/
def map (f : ρ → σ) (d : Dictionary ρ) : Dictionary σ := ⟨d.entries.map fun (k, v) => (k, f v)⟩

/-- The same dictionary with its values replaced one by one, from the first on. -/
def mapM {m : Type → Type} [Monad m] (f : ρ → m σ) (d : Dictionary ρ) : m (Dictionary σ) := do
  return ⟨← d.entries.mapM fun (k, v) => do return (k, ← f v)⟩

end Dictionary

end ScriptHost
