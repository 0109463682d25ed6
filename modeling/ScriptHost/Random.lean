import ScriptHost.Fault
import ScriptHost.Number.Double

/-!
# The random stream

A stream of 64-bit words that a seed determines: the state grows by a constant, an odd number, and a
word is the state with its bits mixed. All draws read one word each, and a draw that is refused
reads none.
-/

set_option autoImplicit false

namespace ScriptHost

/-- A stream of words. -/
structure RandomStream where
  state : UInt64
deriving DecidableEq, Repr

namespace RandomStream

/-- The constant that the state grows by. -/
def increment : UInt64 := 0x9E3779B97F4A7C15

/-- The stream of a seed; zero stands for the constant. -/
def ofSeed (seed : UInt64) : RandomStream := ⟨if seed = 0 then increment else seed⟩

/-- The bits of a word, mixed. -/
def mix (z : UInt64) : UInt64 :=
  let z := (z ^^^ (z >>> 30)) * 0xBF58476D1CE4E5B9
  let z := (z ^^^ (z >>> 27)) * 0x94D049BB133111EB
  z ^^^ (z >>> 31)

/-- The stream after one word. -/
def advance (s : RandomStream) : RandomStream := ⟨s.state + increment⟩

/-- The next word. -/
def word (s : RandomStream) : UInt64 := mix s.advance.state

/-- The next word as a real from zero up to one: its upper 53 bits. -/
def uniform (s : RandomStream) : Float := (s.word >>> 11).toFloat * Float.ofBits 0x3ca0000000000000

/-- The next word as a Boolean: its highest bit. -/
def boolean (s : RandomStream) : Bool := s.word >>> 63 == 1

/-- The next word as an integer that is not negative. -/
def integer (s : RandomStream) : Integer := (s.word >>> 1).toInt64

/-- The next word as an integer from zero up to a bound, which does not belong to the draw. -/
def below (s : RandomStream) (bound : Integer) : Except Fault Integer :=
  if bound.toInt ≤ 0 then .error (.upperBoundNotPositive bound)
    else .ok (Int64.ofInt (s.word.toNat % bound.toInt))

/-- The next word as an integer between two bounds, which belong to the draw. -/
def between (s : RandomStream) (least greatest : Integer) : Except Fault Integer :=
  if greatest.toInt < least.toInt then .error (.drawFromNothing least greatest)
  else .ok (Int64.ofInt (least.toInt + s.word.toNat % (greatest.toInt - least.toInt + 1)))

/-- The next word as a real between two bounds. -/
def realBetween (s : RandomStream) (least greatest : Double) : Double :=
  least + .ofFloat s.uniform * (greatest - least)

end RandomStream

end ScriptHost
