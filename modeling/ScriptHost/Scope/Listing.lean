import ScriptHost.Scope.Environment

/-!
# Listings of an environment

Two texts for people: the keys of every table, and a bar for the number of bindings in each, scaled
to the fullest.
-/

set_option autoImplicit false

namespace ScriptHost.Scope

/-- The line between frames. -/
def rule : String := "<" ++ String.ofList (List.replicate 77 '-') ++ ">"

/-- The title of the base table. -/
def baseTitle : String := "\n\n\nSystem Table:\n\n"

/-- The keys of a table, one a line. -/
def keyLines (t : SymbolTable) : String := String.join (t.keys.map fun k => "    " ++ k ++ "\n")

/-- The keys of all tables, the innermost frame first. -/
def listing (s : Scope) : String :=
  "Global Table:\n\n" ++ rule ++ "\n\n" ++
    String.join (s.stack.frames.map fun f => keyLines f ++ "\n" ++ rule ++ "\n\n") ++ baseTitle ++
      keyLines s.base

/-- The width of the bar of the fullest table. -/
def barWidth : Nat := 74

/-- The length of a bar, to the nearest and a half up; a table that is not empty has a bar. -/
def barLength (count largest : Nat) : Nat :=
  let scaled := if largest = 0 then 0 else (barWidth * count + largest / 2) / largest
  if 0 < count ∧ scaled = 0 then 1 else scaled

/-- A count, four places wide, and its bar. -/
def barLine (count largest : Nat) : String :=
  let digits := toString count
  digits ++ String.ofList (List.replicate (4 - digits.length) ' ') ++ "|" ++
    String.ofList (List.replicate (barLength count largest) '>') ++ "\n"

/-- The number of bindings in every table, the innermost frame first. -/
def histogram (s : Scope) : String :=
  let counts := s.stack.frames.map SymbolTable.length
  let largest := counts.foldl max s.base.length
  "Global Table:\n\n" ++ String.join (counts.map fun n => "----\n" ++ barLine n largest) ++
    baseTitle ++ barLine s.base.length largest

end ScriptHost.Scope
