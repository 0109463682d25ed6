import ScriptHost.Heap.Assign
import ScriptHost.Heap.Container
import ScriptHost.Heap.Declare

/-!
# Versions

A version is a structure of three integers, compared from the first to the last.
-/

set_option autoImplicit false

namespace ScriptHost.Version

/-- The type of versions. -/
def type : TypeDesc :=
  .record (some "VersionT") [("Major", .integer), ("Minor", .integer), ("Patch", .integer)]

/-- The version of the language: major, minor and patch number. -/
def current : Integer × Integer × Integer := (0, 0, 1)

/-- Three numbers joined by points. -/
def text : Integer × Integer × Integer → String
  | (major, minor, patch) => major.text ++ "." ++ minor.text ++ "." ++ patch.text

/-- Assigns a number to a member. -/
def setNumber (version : Handle) (name : String) (i : Integer) : HeapM Unit := do
  HeapM.assign (← HeapM.member version name) (← HeapM.newLeaf (.integer i none))

/-- A new version. -/
def make : Integer × Integer × Integer → HeapM Handle
  | (major, minor, patch) => do
    let version ← HeapM.declare type
    setNumber version "Major" major
    setNumber version "Minor" minor
    setNumber version "Patch" patch
    return version

/-- The numbers of a version. -/
def numbers (v : Handle) : HeapM (Integer × Integer × Integer) := do
  let kind ← HeapM.kindOf v
  if kind ≠ .record then throw (.cannotCast kind.name "VersionT")
  let major ← HeapM.asInteger (← HeapM.member v "Major")
  let minor ← HeapM.asInteger (← HeapM.member v "Minor")
  let patch ← HeapM.asInteger (← HeapM.member v "Patch")
  return (major, minor, patch)

/-- Whether one version comes before another. -/
def lessThan : Integer × Integer × Integer → Integer × Integer × Integer → Bool
  | (a, b, c), (x, y, z) => a < x || (a == x && (b < y || (b == y && c < z)))

end ScriptHost.Version
