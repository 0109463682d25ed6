import ScriptHost.Heap.Basic

/-!
# Declared values

A type declares a fresh value: numbers at zero, or at the least end of a range without zero, texts
and dictionaries empty, arrays with a default element in every slot, structures with a default value
in every member.
-/

set_option autoImplicit false

namespace ScriptHost

namespace HeapM

mutual

/-- A fresh value of a type. -/
def declare : TypeDesc → HeapM Handle
  | .null => newLeaf .null
  | .boolean => newLeaf (.boolean false)
  | .integer => newLeaf (.integer 0 none)
  | .rangedInteger b => newLeaf (.integer b.start (some b))
  | .real => newLeaf (.real 0 none)
  | .rangedReal b => newLeaf (.real (.ofFloat b.startReal) (some b))
  | .string => newLeaf (.string "")
  | .dictionary => new (.dictionary .empty)
  | .array start finish element policy => do
    let slots ← (List.replicate (TypeDesc.slots start finish) ()).mapM fun _ => declare element
    new (.array (.declared start slots element policy))
  | .record name members => do
    let values ← declareMembers members
    new (.record (.declared ⟨name, members⟩ values))

/-- Fresh values of the members of a structure type. -/
def declareMembers : List (String × TypeDesc) → HeapM (List (String × Handle))
  | [] => return []
  | (n, t) :: ms => do return (n, ← declare t) :: (← declareMembers ms)

end

/-- A fresh value of the type that a value is. -/
def declareFrom (v : Handle) : HeapM Handle := do
  let d ← dataOf v
  match d.asType? with
  | some t => declare t
  | none => throw (.cannotCast d.kind.name Kind.type.name)

end HeapM

end ScriptHost
