import ScriptHost.Number.Binary64

/-!
# Reals as values hold them

A `Float` is a number, or the one float that is none. The bits of a real say more: there are many
NaNs, each with a sign and a payload, and keys tell them apart. So a value holds the 64 bits, and
the number is read off them where one is needed. Computing with reals treats NaNs as x86-64 does. An
operand that is a NaN is the result, the first one if there are two, and it is made quiet on the
way; a NaN that comes of numbers is always the same one.
-/

set_option autoImplicit false

namespace ScriptHost

/-- The bits of a real. -/
structure Double where
  bits : UInt64
deriving DecidableEq, Repr

namespace Double

/-- The number that the bits stand for. -/
def toFloat (x : Double) : Float := Float.ofBits x.bits

/-- Whether the bits stand for no number. -/
def isNaN (x : Double) : Bool := x.toFloat.isNaN

/-- The highest bit of the payload, which a quiet NaN has and a signaling one lacks. -/
def quietBit : UInt64 := 0x0008000000000000

/-- A NaN made quiet: its sign and the rest of its payload stay. -/
def quiet (x : Double) : Double := ⟨x.bits ||| quietBit⟩

/-- The NaN that comes of numbers, such as the difference of two infinities. -/
def invalid : Double := ⟨0xfff8000000000000⟩

/-- A computed number. -/
def ofFloat (r : Float) : Double := if r.isNaN then invalid else ⟨r.toBits⟩

instance : OfNat Double 0 := ⟨⟨0⟩⟩

/-- Computes with a real. -/
def map (f : Float → Float) (x : Double) : Double :=
  if x.isNaN then x.quiet else ofFloat (f x.toFloat)

/-- Computes with two reals. -/
def map₂ (f : Float → Float → Float) (x y : Double) : Double :=
  if x.isNaN then x.quiet
  else if y.isNaN then y.quiet
  else ofFloat (f x.toFloat y.toFloat)

instance : Add Double := ⟨map₂ (· + ·)⟩

instance : Sub Double := ⟨map₂ (· - ·)⟩

instance : Mul Double := ⟨map₂ (· * ·)⟩

/-- A real without its sign. This is no computation: a NaN only loses its sign. -/
def abs (x : Double) : Double := ⟨x.bits &&& 0x7fffffffffffffff⟩

end Double

end ScriptHost
