/-!
# Binary64, exactly

A finite 64-bit float is `± mantissa · 2 ^ exponent` with a natural mantissa below `2 ^ 53`.
`Binary64.parts` reads that triple off the bits and `Binary64.nearest` goes back: it rounds any `±
mantissa · 2 ^ exponent` to the nearest float, a half going to the even mantissa. What a script sees
of a float that hardware arithmetic does not already give (its digits, its remainder, its whole
part, its logarithm) is computed between these two maps in natural-number arithmetic, so no step of
it rounds by accident.
-/

set_option autoImplicit false

namespace ScriptHost

/-- The quotient `num / den` rounded to the nearest natural number, a half going to the even one. -/
def roundDiv (num den : Nat) : Nat :=
  let quotient := num / den
  let twice := 2 * (num % den)
  if twice < den then quotient
  else if den < twice then quotient + 1
  else quotient + quotient % 2

namespace Binary64

/-- A finite float as `± mantissa · 2 ^ exponent`. -/
structure Parts where
  negative : Bool
  mantissa : Nat
  exponent : Int
deriving DecidableEq, Repr

/-- The leading bit of the mantissa of a normal float, `2 ^ 52`. -/
def leadingBit : Nat := 0x10000000000000

/-- The eleven exponent bits. -/
def biasedExponent (r : Float) : Nat := r.toBits.toNat / leadingBit % 2048

/-- The sign bit. -/
def signBit (r : Float) : Bool := r.toBits.toNat / 0x8000000000000000 == 1

/-- The exact value of a finite float; for an infinity or a NaN the triple has no meaning. -/
def parts (r : Float) : Parts :=
  let fraction := r.toBits.toNat % leadingBit
  let biased := biasedExponent r
  if biased = 0 then ⟨signBit r, fraction, -1074⟩
  else ⟨signBit r, fraction + leadingBit, (biased : Int) - 1075⟩

/-- Neither zero, subnormal, infinite nor NaN. -/
def isNormal (r : Float) : Bool := biasedExponent r != 0 && biasedExponent r != 2047

/-- Positive infinity. -/
def infinity : Float := Float.ofBits 0x7ff0000000000000

/-- Sets the sign of a non-negative float. -/
def withSign (negative : Bool) (r : Float) : Float := if negative then -r else r

/-- The float nearest to `mantissa · 2 ^ exponent`; overflow goes to infinity. -/
def magnitude (mantissa : Nat) (exponent : Int) : Float :=
  if mantissa = 0 then Float.ofBits 0
  else
    let wanted : Int := exponent + (mantissa.log2 + 1 : Nat) - 53
    let target : Int := if wanted < -1074 then -1074 else wanted
    let rounded :=
      if exponent < target then roundDiv mantissa (1 <<< (target - exponent).toNat)
      else mantissa <<< (exponent - target).toNat
    let (kept, power) :=
      if rounded = 2 * leadingBit then (leadingBit, target + 1) else (rounded, target)
    if 971 < power then infinity
    else if kept < leadingBit then Float.ofBits (UInt64.ofNat kept)
    else Float.ofBits (UInt64.ofNat ((power + 1075).toNat * leadingBit + (kept - leadingBit)))

/-- The float nearest to `± mantissa · 2 ^ exponent`. -/
def nearest (p : Parts) : Float := withSign p.negative (magnitude p.mantissa p.exponent)

/-- A finite float without its fraction, as a mathematical integer. -/
def truncate (r : Float) : Int :=
  let p := parts r
  let whole : Nat :=
    if 0 ≤ p.exponent then p.mantissa <<< p.exponent.toNat else p.mantissa >>> (-p.exponent).toNat
  if p.negative then -(whole : Int) else whole

/-- The remainder of `x` by `y` with the sign of `x`, computed exactly. An infinite `x` or a zero
`y` has none (NaN); an infinite `y` leaves `x` as it is. -/
def remainder (x y : Float) : Float :=
  if x.isNaN || y.isNaN || x.isInf || y == 0 then 0 / 0
  else if y.isInf then x
  else
    let a := parts x
    let b := parts y
    let common : Int := if a.exponent ≤ b.exponent then a.exponent else b.exponent
    let top := a.mantissa <<< (a.exponent - common).toNat
    let bottom := b.mantissa <<< (b.exponent - common).toNat
    nearest ⟨a.negative, top % bottom, common⟩

/-- The remainder of `x` by `y` moved up by `|y|` when it is negative. -/
def modulus (x y : Float) : Float :=
  let r := remainder x y
  if r < 0 then r + y.abs else r

/-! ## Bits as text -/

/-- One hexadecimal digit, in lower case. -/
def hexDigit (n : Nat) : Char := if n < 10 then Char.ofNat (48 + n) else Char.ofNat (87 + n)

/-- The bits as sixteen hexadecimal digits; all NaNs are written alike. -/
def hex (r : Float) : String :=
  if r.isNaN then "nan"
  else String.ofList ((List.range 16).map
    fun i => hexDigit (r.toBits.toNat >>> (4 * (15 - i)) % 16))

end Binary64

end ScriptHost
