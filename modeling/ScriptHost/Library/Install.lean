import ScriptHost.Library.Perform

/-!
# The library

What a host finds in its base table when it starts: locked constants, the types the library uses,
the version of the language, and every routine under its name and arity. Three comparisons are also
bound under plain names, so that they can be passed on without their arity.
-/

set_option autoImplicit false

namespace ScriptHost.Library

/-- Parts of the language that are there. -/
def present : List String := ["IS_LIB_CORE", "IS_LIB_MATH_CORE", "IS_LIB_MATH_RANDOM"]

/-- Parts of the language that other hosts may have. -/
def missing : List String :=
  ["IS_LIB_CONSOLE_IO", "IS_LIB_DATABASE", "IS_LIB_DATETIME", "IS_LIB_DEBUG", "IS_LIB_FILEIO",
    "IS_LIB_GRAPHICS", "IS_LIB_MATH_COMPLEX", "IS_LIB_MATH_MATRIX", "IS_LIB_NETWORK",
    "IS_LIB_RS232", "IS_LIB_STRING", "IS_LIB_TEXT_IO",
    "IS_LIB_ZLIB"]

/-- A small number as contents of a value. -/
def natural (n : Nat) : Leaf := .integer (Int64.ofNat n) none

/-- The constants by name. -/
def constants : List (String × Leaf) :=
  [("NULL", .null)] ++
  Kind.all.map (fun k => ("TYPEID_" ++ k.name.toUpper, natural k.number)) ++
  [("RANGE_BOUNDARY_ERROR", natural RangePolicy.refuse.code),
    ("RANGE_BOUNDARY_CAP", natural RangePolicy.cap.code),
    ("RANGE_BOUNDARY_ROLLOVER", natural RangePolicy.rollover.code), ("BOOLEAN_MIN", .boolean false),
    ("BOOLEAN_MAX", .boolean true), ("INTEGER_MIN", .integer (Int64.ofInt Integer.least) none),
    ("INTEGER_MAX", .integer (Int64.ofInt Integer.greatest) none), ("INTEGER_EPS", natural 1),
    ("REAL_MIN", .real ⟨0x0010000000000000⟩ none), ("REAL_MAX", .real ⟨0x7fefffffffffffff⟩ none),
    ("REAL_EPS", .real (.ofFloat Tolerance.epsilon) none), ("USES_32BIT_ATOMICS", .boolean false),
    ("USES_64BIT_ATOMICS", .boolean true)] ++
  FaultKind.all.map (fun k => (k.constantName, natural k.index)) ++
  present.map (fun n => (n, .boolean true)) ++
  missing.map (fun n => (n, .boolean false)) ++
  [("ErrorT", .type HostM.errorType), ("VersionT", .type Version.type)]

/-- The plain names under which comparisons can be passed on. -/
def aliases : List (String × String) :=
  [("SORT_ASCENDING", "CompareLessThan"), ("SORT_DESCENDING", "CompareGreaterThan"),
    ("EQUAL", "CompareEqual")]

/-- Binds a plain name of the base table. -/
def bindPlain (name : String) (v : Handle) : HostM Unit :=
  HostM.onScope .host (Scope.insertPlain (marked name) v)

/-- Binds a locked constant. -/
def installConstant (name : String) (l : Leaf) : HostM Unit := do
  bindPlain name (← HostM.onHeap (HeapM.alloc ⟨.leaf l, true⟩))

/-- Binds a routine under its name and arity. -/
def installRoutine (r : Routine) : HostM Unit := do
  let (name, params) := r.signature
  let v ← HostM.onHeap (HeapM.newFunction name params (.routine r))
  HostM.onHeap (HeapM.lock v)
  HostM.onScope .host (Scope.insert (marked name) v (← HostM.onHeap (HeapM.dataOf v)))

/-- Binds a routine of two parameters under a plain name as well. -/
def installAlias (plain name : String) : HostM Unit := do
  bindPlain plain (← HostM.of ((← HostM.look (·.scope)).lookupOverload (marked name) 2))

/-- Binds the version of the language. -/
def installVersion : HostM Unit := do
  let v ← HostM.onHeap (Version.make Version.current)
  HostM.onHeap (HeapM.lock v)
  bindPlain "VERSION" v

/-- Fills the base table and pushes the frame of globals. -/
def install : HostM Unit := do
  constants.forM fun (name, l) => installConstant name l
  Routine.all.forM installRoutine
  aliases.forM fun (plain, name) => installAlias plain name
  installVersion
  HostM.onScope .host (Scope.push .empty)

end ScriptHost.Library

/-- A host with the library. -/
def ScriptHost.Host.start (settings : ScriptHost.Settings) : ScriptHost.Host :=
  ScriptHost.endState ScriptHost.Library.install (.bare settings)
