import ScriptHost.Number.Numeral

/-!
# Symbols

A value is bound under a symbol: a plain name, or a name together with an arity, under which
overloads of one name do not collide. The key of a symbol is its text; an overload has a mangled
key, the name and the arity joined by an underscore. `demangle?` splits a mangled key at its last
underscore, so names may hold underscores and digits of their own.

A leading marker on a key says that the base table alone is meant.
-/

set_option autoImplicit false

namespace ScriptHost

/-- What a value is bound under. -/
inductive Symbol where
  | plain (name : String)
  | overload (name : String) (arity : Nat)
deriving DecidableEq, Repr

/-- The mangled key of an overload. -/
def mangle (name : String) (arity : Nat) : String := name ++ "_" ++ toString arity

/-- The name and the arity of a mangled key. The arity is a 64-bit number, below `2 ^ 64`. -/
def demangle? (key : String) : Option (String × Nat) :=
  let cs := key.toList.reverse
  let tail := cs.takeWhile (· != '_')
  match cs.dropWhile (· != '_') with
  | [] => none
  | _ :: name =>
    if name.isEmpty || tail.isEmpty || !tail.all Numeral.isDigit then none
    else
      let arity := Numeral.value tail.reverse
      if arity < 18446744073709551616 then some (String.ofList name.reverse, arity) else none

/-- The key of a symbol. -/
def Symbol.key : Symbol → String
  | .plain name => name
  | .overload name arity => mangle name arity

/-- The name of a symbol without its arity. -/
def Symbol.name : Symbol → String
  | .plain name => name
  | .overload name _ => name

/-- The place of a symbol among those of its name: the plain one, then the overloads by arity. -/
def Symbol.place : Symbol → Nat
  | .plain _ => 0
  | .overload _ arity => arity + 1

/-- Whether a symbol comes no later than another one in a listing: by name, then by place. -/
def Symbol.notAfter (a b : Symbol) : Bool :=
  a.name < b.name || (a.name == b.name && a.place ≤ b.place)

/-- The character that marks a key as meant for the base table. -/
def baseMarker : Char := '\x60'

/-- A key without its marker, and whether it had one. -/
def unmark (key : String) : Bool × String :=
  match key.toList with
  | c :: cs => if c = baseMarker then (true, String.ofList cs) else (false, key)
  | [] => (false, key)

/-- A name marked for the base table. -/
def marked (name : String) : String := String.ofList (baseMarker :: name.toList)

end ScriptHost
