import ScriptHost.Program.Expr

/-!
# Callables

A callable is a body with named parameters. Each one gets a stamp of its own when it is made, and
two callables are the same callable when their stamps agree. An executable is a set of overloads,
callables that differ in the number of their parameters, kept in ascending order of that number.
-/

set_option autoImplicit false

namespace ScriptHost

/-- A body with named parameters. -/
structure Callable where
  stamp : Nat
  name : String
  params : List Param
  body : Body

namespace Callable

/-- The number of parameters. -/
def arity (c : Callable) : Nat := c.params.length

/-- The name and the arity. -/
def text (c : Callable) : String := s!"Callable({c.name}/{c.arity})"

/-- The first name that a list of names repeats. -/
def repeated? (seen : List String) : List String → Option String
  | [] => none
  | n :: ns => if seen.contains n then some n else repeated? (n :: seen) ns

/-- Refuses a parameter that is named twice. -/
def checkParams (params : List Param) : Except Fault Unit :=
  match repeated? [] (params.map (·.name)) with
  | some n => .error (.parameterTaken n)
  | none => .ok ()

end Callable

/-- Callables of different arities, in ascending order. -/
structure Executable where
  overloads : List Callable

namespace Executable

/-- The executable of one callable. -/
def single (c : Callable) : Executable := ⟨[c]⟩

/-- The arities in ascending order. -/
def arities (e : Executable) : List Nat := e.overloads.map Callable.arity

/-- The callable that takes `arity` arguments. -/
def get? (e : Executable) (arity : Nat) : Option Callable := e.overloads.find? (·.arity == arity)

/-- The name of the callable with the fewest parameters. -/
def name (e : Executable) : String := (e.overloads.head?.map (·.name)).getD ""

/-- A callable in its place by arity. -/
def place (c : Callable) : List Callable → List Callable
  | [] => [c]
  | d :: ds => if c.arity < d.arity then c :: d :: ds else d :: place c ds

/-- Adds the overloads of another executable; an arity that both have is refused. -/
def merge (e other : Executable) : Except Fault Executable :=
  match other.arities.find? e.arities.contains with
  | some arity => .error (.overloadTaken e.name arity)
  | none => .ok ⟨other.overloads.foldl (fun cs c => place c cs) e.overloads⟩

/-- An executable as text. -/
def text (e : Executable) : String :=
  "<function " ++ e.name ++ "/" ++ String.intercalate "," (e.arities.map toString) ++ ">"

/-- Whether two executables have the same callables. -/
def same (a b : Executable) : Bool :=
  a.arities == b.arities && a.overloads.map (·.stamp) == b.overloads.map (·.stamp)

end Executable

end ScriptHost
