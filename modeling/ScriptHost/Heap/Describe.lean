import ScriptHost.Heap.Basic

/-!
# The type of a value

`HeapM.typeOf` finds the type that describes a value: the type it was declared from, or one read off
its contents. An array that was not declared is described by its first element. Null and executables
have no type; as the first element of an array they count as Null, and as a member of a structure
they make the structure one without a type.
-/

set_option autoImplicit false

namespace ScriptHost

/-- The type of a leaf. -/
def Leaf.describe : Leaf → Option TypeDesc
  | .null | .executable _ => none
  | .type t => some t
  | .boolean _ => some .boolean
  | .integer _ none => some .integer
  | .integer _ (some b) => some (.rangedInteger b)
  | .real _ none => some .real
  | .real _ (some b) => some (.rangedReal b)
  | .string _ => some .string

/-- Adds the type of one member after the other; a member without a type is refused. -/
def describeMembers (describe : Handle → Except Fault (Option TypeDesc))
    (done : List (String × TypeDesc)) :
    List (String × Handle) → Except Fault (List (String × TypeDesc))
  | [] => .ok done
  | (name, v) :: ms => do
    match ← describe v with
    | some t => describeMembers describe (← TypeDesc.addMember done name t) ms
    | none => .error (.undescribedMember name)

/-- The type of the elements: the declared one, or that of the first element. -/
def describeElement (describe : Handle → Except Fault (Option TypeDesc)) (s : Sequence Handle) :
    Except Fault TypeDesc :=
  match s.element, s.items with
  | some t, _ => .ok t
  | none, first :: _ => (describe first).map (·.getD .null)
  | none, [] => .ok .null

/-- The type of a value, read down to so many levels. -/
def Heap.describeTo (h : Heap) : Nat → Handle → Except Fault (Option TypeDesc)
  | 0, _ => .ok none
  | n + 1, v =>
    match h.data v with
    | .leaf l => .ok l.describe
    | .dictionary _ => .ok (some .dictionary)
    | .array s => do
      let element ← describeElement (h.describeTo n) s
      return some (← TypeDesc.ofRange s.start s.finish element s.policy)
    | .record ⟨some t, _⟩ => .ok (some t.toType)
    | .record ⟨none, members⟩ => do
      return some (.record none (← describeMembers (h.describeTo n) [] members))

/-- A value's type as a value: a type is its own, and what has no type yields Null. -/
def HeapM.typeOf (v : Handle) : HeapM Handle := do
  match ← dataOf v with
  | .leaf (.type _) => return v
  | _ =>
    match ← ask fun h => h.describeTo h.levels v with
    | some t => newLeaf (.type t)
    | none => newNull

end ScriptHost
