import ScriptHost.Number.Binary64

/-!
# Floats as decimal text

Two texts of a float are in use. A *value* is shown in general form (`Decimal.general`): fifteen
significant digits of the exact binary value, a half going to the even digit, trailing zeros
dropped, and an exponent only when the first digit stands before the fifth place after the point or
the number has more than fifteen places before it. A *limit* is shown in positional form
(`Decimal.positional`): the fewest digits that read back as the same float, the nearest of those and
a half going up, and never an exponent.

Both work on the exact value `mantissa · 2 ^ exponent`: `scaled` moves the point and rounds once,
and `leadingPower` finds the power of ten of the first digit.
-/

set_option autoImplicit false

namespace ScriptHost.Decimal

/-! ## A positive dyadic number in decimal places -/

/-- The numerator and denominator of `mantissa · 2 ^ exponent · 10 ^ places`. -/
def ratio (mantissa : Nat) (exponent places : Int) : Nat × Nat :=
  ((mantissa * Nat.pow 10 places.toNat) <<< exponent.toNat,
    Nat.pow 10 (-places).toNat <<< (-exponent).toNat)

/-- `mantissa · 2 ^ exponent · 10 ^ places` rounded to a natural number. -/
def scaled (mantissa : Nat) (exponent places : Int) : Nat :=
  let (num, den) := ratio mantissa exponent places
  roundDiv num den

/-- The decimal digits of a natural number. -/
def digits (n : Nat) : List Char := Nat.toDigits 10 n

/-- The `e` with `10 ^ e ≤ mantissa · 2 ^ exponent < 10 ^ (e + 1)`, for a mantissa that is not
zero. -/
def leadingPower (mantissa : Nat) (exponent : Int) : Int :=
  let (num, den) := ratio mantissa exponent 0
  if den ≤ num then ((digits (num / den)).length : Int) - 1
  else
    let ceiling := (den + num - 1) / num
    Int.negOfNat (digits (ceiling - 1)).length

/-- Digits with a point before the last `places` of them, at least one digit standing before the
point. -/
def pointed (n places : Nat) : List Char :=
  let ds := digits n
  let padded := List.replicate (places + 1 - ds.length) '0' ++ ds
  let whole := padded.take (padded.length - places)
  if places = 0 then whole else whole ++ '.' :: padded.drop (padded.length - places)

/-- Drops the zeros at the end of a fraction, and a point left without one. -/
def trimmed (cs : List Char) : List Char :=
  if cs.contains '.' then
    let kept := cs.reverse.dropWhile (· == '0')
    (if kept.head? == some '.' then kept.tail else kept).reverse
  else cs

/-! ## General form -/

/-- The number of significant digits of the general form. -/
def significant : Nat := 15

/-- Two digits at least. -/
def exponentDigits (n : Nat) : List Char := if n < 10 then '0' :: digits n else digits n

/-- The general form of `mantissa · 2 ^ exponent`, for a mantissa that is not zero. -/
def generalDigits (mantissa : Nat) (exponent : Int) : List Char :=
  let power := leadingPower mantissa exponent
  let lead := scaled mantissa exponent (significant - 1 - power)
  let (lead, power) :=
    if lead = Nat.pow 10 significant then (Nat.pow 10 (significant - 1), power + 1)
      else (lead, power)
  if power < -5 ∨ significant ≤ power then
    trimmed (pointed lead (significant - 1)) ++ 'e' :: (if power < 0 then '-'
      else '+') :: exponentDigits power.natAbs
  else
    let places := (significant - 1 - power).toNat
    trimmed (pointed (scaled mantissa exponent places) places)

/-- A sign before the digits of a magnitude. -/
def withMinus (negative : Bool) (cs : List Char) : String :=
  String.ofList (if negative then '-' :: cs else cs)

/-- A float in general form. -/
def general (r : Float) : String :=
  if r.isNaN then "nan"
  else if r.isInf then if r < 0 then "-inf" else "inf"
  else
    let p := Binary64.parts r
    withMinus p.negative (if p.mantissa = 0 then ['0'] else generalDigits p.mantissa p.exponent)

/-! ## Positional form -/

/-- Four times the exact value and the ends of the interval of numbers that round to it, all at `2 ^
(exponent - 2)`. Below a power of two the neighbour is half as far away. -/
structure Interval where
  low : Nat
  value : Nat
  high : Nat
  exponent : Int
  closed : Bool

/-- The interval of a finite float that is not zero. The ends belong to it when the mantissa is
even. -/
def interval (mantissa : Nat) (exponent : Int) : Interval :=
  let low := if mantissa = Binary64.leadingBit ∧ -1074 < exponent then 4 * mantissa - 1
    else 4 * mantissa - 2
  ⟨low, 4 * mantissa, 4 * mantissa + 2, exponent - 2, mantissa % 2 == 0⟩

/-- Whether `candidate / 10 ^ places` lies in the interval. -/
def Interval.holds (i : Interval) (candidate : Nat) (places : Int) : Bool :=
  let (unit, den) := ratio 1 i.exponent places
  let point := candidate * den
  if i.closed then i.low * unit ≤ point && point ≤ i.high * unit
    else i.low * unit < point && point < i.high * unit

/-- The nearest number with `places` decimal places that reads back as the value, if there is one:
of the two neighbours on that grid the nearer that lies in the interval, and the upper one when both
are equally near. -/
def Interval.onGrid (i : Interval) (places : Int) : Option Nat :=
  let (unit, den) := ratio 1 i.exponent places
  let below := i.value * unit / den
  let twice := 2 * (i.value * unit % den)
  let down := i.holds below places
  let up := i.holds (below + 1) places
  if up && (!down || den ≤ twice) then some (below + 1)
  else if down then some below
  else none

/-- The coarsest grid, of at most `fuel` more digits from `places` on, that has a number reading
back as the value. -/
def Interval.coarsest (i : Interval) : Nat → Int → Nat × Int
  | 0, places => (scaled i.value i.exponent places, places)
  | fuel + 1, places =>
    match i.onGrid places with
    | some n => (n, places)
    | none => i.coarsest fuel (places + 1)

/-- The fewest digits that read back as `mantissa · 2 ^ exponent`, with their number of decimal
places: seventeen digits always do. -/
def shortest (mantissa : Nat) (exponent : Int) : Nat × Int :=
  (interval mantissa exponent).coarsest 17 (-(leadingPower mantissa exponent))

/-- The fewest digits that read back, written out with zeros instead of an exponent. -/
def positionalDigits (mantissa : Nat) (exponent : Int) : List Char :=
  let (n, places) := shortest mantissa exponent
  if 0 < places then trimmed (pointed n places.toNat) else digits (n * Nat.pow 10 (-places).toNat)

/-- A float in positional form. -/
def positional (r : Float) : String :=
  if r.isNaN then "NaN"
  else if r.isInf then if r < 0 then "-inf" else "inf"
  else
    let p := Binary64.parts r
    withMinus p.negative (if p.mantissa = 0 then ['0'] else positionalDigits p.mantissa p.exponent)

end ScriptHost.Decimal
