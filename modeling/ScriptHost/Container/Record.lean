import ScriptHost.Container.Named
import ScriptHost.TypeDesc

/-!
# Records

The contents of a structure: a closed list of named members, and the structure type it was declared
from, if any.
-/

set_option autoImplicit false

namespace ScriptHost

/-- Named members in order. -/
structure Record (ρ : Type) where
  type : Option RecordType
  members : List (String × ρ)

namespace Record

variable {ρ σ : Type}

/-- The record of given members, without a type. A name that is given twice keeps its first place
and its last value. -/
def ofMembers (members : List (String × ρ)) : Record ρ :=
  ⟨none, members.foldl (fun ms (n, v) => Named.put n v ms) []⟩

/-- The record of given members that a structure type declares. -/
def declared (type : RecordType) (members : List (String × ρ)) : Record ρ :=
  ⟨some type, (ofMembers members).members⟩

/-- The number of members. -/
def length (r : Record ρ) : Nat := r.members.length

/-- The names of the members in order. -/
def names (r : Record ρ) : List String := r.members.map (·.1)

/-- The values of the members in order. -/
def values (r : Record ρ) : List ρ := r.members.map (·.2)

/-- The member of a name. -/
def get (r : Record ρ) (name : String) : Except Fault ρ :=
  match Named.find name r.members with
  | some v => .ok v
  | none => .error (.noSuchMember name)

/-- The name of the type, if it has one. -/
def typeName (r : Record ρ) : Option String := r.type.bind (·.name)

/-- The same record with its values replaced one by one. -/
def map (f : ρ → σ) (r : Record ρ) : Record σ := ⟨r.type, r.members.map fun (n, v) => (n, f v)⟩

/-- The same record with its values replaced one by one, from the first on. -/
def mapM {m : Type → Type} [Monad m] (f : ρ → m σ) (r : Record ρ) : m (Record σ) := do
  return ⟨r.type, ← r.members.mapM fun (n, v) => do return (n, ← f v)⟩

end Record

end ScriptHost
