import ScriptHost.Heap.Copy

/-!
# Assignment

Assignment copies one value into another and keeps the type of the target: a scalar takes the source
converted to its own kind and brought into its bounds; an array or a structure passes the assignment
on to its own elements or members, one after the other, so handles of them see it; a dictionary
takes over copies of the entries. An unlocked Null takes on whatever it is given. The first fault
ends the assignment, and what was assigned before it stays.

A value assigned to itself stays as it is. Nothing that is locked changes, at any level.
-/

set_option autoImplicit false

namespace ScriptHost.HeapM

/-- The number brought into its bounds, if it has any. -/
def fitInteger (bounds : Option (Bounds Integer)) (i : Integer) : Except Fault Integer :=
  match bounds with
  | some b => b.fit i
  | none => .ok i

/-- The number brought into its bounds, if it has any. -/
def fitReal (bounds : Option (Bounds Float)) (r : Double) : Except Fault Double :=
  match bounds with
  | some b => (b.fitReal r.toFloat).map .ofFloat
  | none => .ok r

/-- What a scalar, a type or an executable becomes when it is assigned a source. A Null is no target
of a conversion: it takes on the source as it is. -/
def convertInto (target : Leaf) (source : Data Handle) : Except Fault Leaf :=
  match target with
  | .null => .ok .null
  | .boolean _ => source.asBoolean.map .boolean
  | .integer _ b => do return .integer (← fitInteger b (← source.asInteger)) b
  | .real _ b => do return .real (← fitReal b (← source.asReal)) b
  | .string _ => source.asString.map .string
  | .type _ =>
    match source.asType? with
    | some t => .ok (.type t)
    | none => .error (.cannotCast source.kind.name Kind.type.name)
  | .executable _ =>
    match source.asExecutable? with
    | some e => .ok (.executable e)
    | none => .error (.cannotCast source.kind.name Kind.executable.name)

/-- The elements of an array that is the source of an assignment to one of a given length. -/
def sourceItems (source : Data Handle) (length : Nat) : Except Fault (List Handle) :=
  match source with
  | .array s => if s.length = length then .ok s.items else .error (.lengthsDiffer s.length length)
  | d => .error (.cannotCast d.kind.name Kind.array.name)

/-- Refuses a source that is no dictionary. -/
def sourceDictionary (source : Data Handle) : Except Fault Unit :=
  match source with
  | .dictionary _ => .ok ()
  | d => .error (.cannotCast d.kind.name Kind.dictionary.name)

/-- The members of a structure that is the source of an assignment to one with the given names. -/
def sourceMembers (source : Data Handle) (names : List String) :
    Except Fault (List (String × Handle)) :=
  match source with
  | .record r =>
    if r.length = names.length ∧ r.names.all names.contains then .ok r.members
      else .error .membersDiffer
  | d => .error (.cannotCast d.kind.name Kind.record.name)

/-- One level of an assignment: `part` is left to assign to elements and members. -/
def assignOnce (part : Handle → Handle → HeapM Unit) (target source : Handle) : HeapM Unit := do
  let held ← writable target
  if target = source then return ()
  let given ← dataOf source
  match held with
  | .leaf .null => write target (← copyData source)
  | .leaf l => write target (.leaf (← of (convertInto l given)))
  | .array s => (s.items.zip (← of (sourceItems given s.length))).forM fun (t, v) => part t v
  | .dictionary _ =>
    of (sourceDictionary given)
    write target (← copyData source)
  | .record r => (← of (sourceMembers given r.names)).forM fun (name, v) => do
    part (← of (r.get name)) v

/-- Assigns down to so many levels. Level 0 is there for the recursion alone. -/
def assignTo : Nat → Handle → Handle → HeapM Unit
  | 0, _, _ => return ()
  | n + 1, target, source => assignOnce (assignTo n) target source

/-- Assigns down to so many levels of the first `base` cells. Cells made later belong to copies that
a Null or a dictionary has taken over in the meantime. A copy is a tree, so the levels of the heap
at that point are enough for it. -/
def assignWithin (base : Nat) : Nat → Handle → Handle → HeapM Unit
  | 0, _, _ => return ()
  | n + 1, target, source =>
    let part (t v : Handle) : HeapM Unit := do
      if t.index < base then assignWithin base n t v else assignTo (← look (·.levels)) t v
    assignOnce part target source

/-- Assigns `source` to `target`. Levels are no limit of an assignment: there are enough of them,
also where the target and the source share cells, so that it is `assignOnce assign`
(`Heap.WellFormed.assign_eq`). -/
def assign (target source : Handle) : HeapM Unit := do
  let levels ← look (·.levels)
  assignWithin (← look (·.size)) levels target source

end ScriptHost.HeapM
