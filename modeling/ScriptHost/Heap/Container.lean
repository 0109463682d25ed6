import ScriptHost.Heap.Copy

/-!
# Containers

Appending, inserting, exchanging and looking up in arrays, dictionaries and structures. An operation
that makes a container hold a value first refuses a value that contains the container, then a locked
container, and only then looks at what the container is; an operation that fails changes nothing.

Reading an absent key of a dictionary through `element` makes an entry for it, an unlocked Null;
`getKey` only looks.
-/

set_option autoImplicit false

namespace ScriptHost.HeapM

/-! ## Changing a container -/

/-- Refuses a value of another kind than the declared one. -/
def checkElement (element : Option TypeDesc) (incoming : Kind) : Except Fault Unit :=
  match element with
  | some t => if t.kind = incoming then .ok () else .error (.elementKind incoming t.kind)
  | none => .ok ()

/-- Appends a value to an array, or adds the overloads of an executable to those of another one. -/
def add (target value : Handle) : HeapM Unit := do
  match ← dataOf target with
  | .array s =>
    rejectCycle target value
    let _ ← writable target
    of (checkElement s.element (← kindOf value))
    write target (.array (← of (s.push value)))
  | .leaf (.executable e) =>
    let d ← dataOf value
    match d.asExecutable? with
    | none => throw (.cannotCast d.kind.name Kind.executable.name)
    | some other =>
      let _ ← writable target
      write target (.leaf (.executable (← of (e.merge other))))
  | .dictionary _ => throw .keyRequired
  | d => throw (.notExtensible d.kind)

/-- Puts a value under a key of a dictionary. -/
def insertKey (target key value : Handle) : HeapM Unit := do
  let k ← ask fun h => (h.data key).asKey
  rejectCycle target value
  match ← writable target with
  | .dictionary d => write target (.dictionary (d.insert k value))
  | d => throw (.noKeys d.kind)

/-- Puts a value into an array before the element under a position; the position after the last one
appends. -/
def insertAt (target value : Handle) (position : Integer) : HeapM Unit := do
  rejectCycle target value
  match ← writable target with
  | .array s => write target (.array (← of (s.insert position value)))
  | d => throw (.notAnArray d.kind)

/-- Exchanges two elements of an array. -/
def swap (target : Handle) (a b : Integer) : HeapM Unit := do
  match ← writable target with
  | .array s => write target (.array (← of (s.swap a b)))
  | d => throw (.notAnArray d.kind)

/-- Puts other elements into an array in place of all of its own. -/
def setElements (target : Handle) (items : List Handle) : HeapM Unit := do
  items.forM (rejectCycle target)
  match ← writable target with
  | .array s => write target (.array (← of (s.replace items)))
  | d => throw (.notAnArray d.kind)

/-- Removes an entry of a dictionary and yields its value. -/
def removeKey (target key : Handle) : HeapM (Option Handle) := do
  let k ← ask fun h => (h.data key).asKey
  match ← writable target with
  | .dictionary d =>
    write target (.dictionary (d.erase k))
    return d.get? k
  | d => throw (.notADictionary d.kind)

/-! ## Looking into a container -/

/-- The element under an index. -/
def elementAt (target : Handle) (index : Integer) : HeapM Handle := ask fun h =>
  match h.data target with
  | .array s => s.get index
  | d => .error (.notAnArray d.kind)

/-- The element of an array under an index, or the value of a dictionary under a key, made if it is
absent. -/
def element (target index : Handle) : HeapM Handle := do
  match ← dataOf target with
  | .array _ => elementAt target (← asInteger index)
  | .dictionary d =>
    let k ← ask fun h => (h.data index).asKey
    match d.get? k with
    | some v => return v
    | none =>
      let _ ← writable target
      let v ← newLeaf .null
      write target (.dictionary (d.insert k v))
      return v
  | d => throw (.noElements d.kind)

/-- The elements of an array. -/
def elements (target : Handle) : HeapM (List Handle) := ask fun h =>
  match h.data target with
  | .array s => .ok s.items
  | d => .error (.notAnArray d.kind)

/-- The first and the last index of an array. -/
def bounds (target : Handle) : HeapM (Integer × Integer) := ask fun h =>
  match h.data target with
  | .array s => .ok (s.start, s.finish)
  | d => .error (.notAnArray d.kind)

/-- The position of the element under an index. -/
def resolve (target : Handle) (index : Integer) : HeapM Nat := ask fun h =>
  match h.data target with
  | .array s => (s.resolve index).map (·.val)
  | d => .error (.notAnArray d.kind)

/-- The value of a dictionary under a key. -/
def getKey (target key : Handle) : HeapM (Option Handle) := do
  let k ← ask fun h => (h.data key).asKey
  match ← dataOf target with
  | .dictionary d => return d.get? k
  | d => throw (.notADictionary d.kind)

/-- The keys of a dictionary as new values. -/
def keys (target : Handle) : HeapM (List Handle) := do
  match ← dataOf target with
  | .dictionary d => d.keys.mapM fun k => newLeaf k.toLeaf
  | d => throw (.notADictionary d.kind)

/-- The number of elements, entries, members or characters. -/
def length (target : Handle) : HeapM Nat := ask fun h =>
  match h.data target with
  | .array s => .ok s.length
  | .dictionary d => .ok d.length
  | .record r => .ok r.length
  | .leaf (.string s) => .ok s.length
  | d => .error (.noLength d.kind)

/-- What an array tells about itself. -/
def arrayProperty (s : Sequence Handle) (name : String) : Except Fault Leaf :=
  if name = "start" then .ok (.integer s.start none)
  else if name = "finish" then .ok (.integer s.finish none)
  else if name = "length" then .ok (.integer (Int64.ofNat s.length) none)
  else if name = "empty" then .ok (.boolean s.items.isEmpty)
  else .error (.noSuchMember name)

/-- A member of a structure, or a property of an array as a new locked value. -/
def member (target : Handle) (name : String) : HeapM Handle := do
  match ← dataOf target with
  | .record r => of (r.get name)
  | .array s => alloc ⟨.leaf (← of (arrayProperty s name)), true⟩
  | d => throw (.noMembers d.kind)

/-- The names of the members of a structure. -/
def members (target : Handle) : HeapM (List String) := ask fun h =>
  match h.data target with
  | .record r => .ok r.names
  | d => .error (.noMembers d.kind)

/-! ## Conversion -/

/-- The contents of an element converted to a scalar kind; an array in an array is not. -/
def convertItem (target : Kind) (d : Data Handle) : Except Fault Leaf :=
  match d with
  | .array _ => .error (.cannotCast Kind.array.name target.name)
  | d => d.convert target

/-- A new scalar of a given kind, or a new array of them, one for each element. -/
def cast (target : Kind) (v : Handle) : HeapM Handle := do
  match ← dataOf v with
  | .array s =>
    let leaves ← s.items.mapM fun i => ask fun h => convertItem target (h.data i)
    new (.array (.ofItems s.start (← leaves.mapM newLeaf) .refuse))
  | d => newLeaf (← of (d.convert target))

end ScriptHost.HeapM
