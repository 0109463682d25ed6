import ScriptHost.Number.Integer
import ScriptHost.Text.Blank

/-!
# Numbers read from text

A text is read as a number by its beginning: blanks are skipped, then a sign and digits are taken as
far as they go, and whatever follows is left unread. An integer is a sign and a digit run
(`Numeral.integer?`); a real adds a fraction and an exponent (`Numeral.real?`), where an exponent
mark counts only when digits follow it.

Both split the text with `takeWhile`/`dropWhile`, so the three facts that pin a run down (nothing is
lost, the run holds digits only, the rest starts with none) are library lemmas.
-/

set_option autoImplicit false

namespace ScriptHost.Numeral

/-- An ASCII digit. -/
def isDigit (c : Char) : Bool := '0' ≤ c && c ≤ '9'

/-- The digits at the start of a text. -/
def run (cs : List Char) : List Char := cs.takeWhile isDigit

/-- What follows the digits at the start of a text. -/
def afterRun (cs : List Char) : List Char := cs.dropWhile isDigit

/-- The number that a digit run writes, `10 · 0 + d₁`, `10 · d₁ + d₂`, and so on. -/
def value (ds : List Char) : Nat := ds.foldl (fun n c => 10 * n + (c.toNat - '0'.toNat)) 0

/-- An optional sign: whether it is a minus, and the text after it. -/
def sign : List Char → Bool × List Char
  | '-' :: cs => (true, cs)
  | '+' :: cs => (false, cs)
  | cs => (false, cs)

/-- A signed magnitude. -/
def signed (negative : Bool) (n : Nat) : Int := if negative then -(n : Int) else n

/-- The integer at the start of a text; none without a digit, or when the number is out of range. -/
def integer? (text : String) : Option Integer :=
  let (negative, cs) := sign (Text.unindented text.toList)
  if (run cs).isEmpty then none else Integer.ofInt? (signed negative (value (run cs)))

/-- The exponent at the start of a text: a mark, an optional sign and digits, or nothing. -/
def exponent (cs : List Char) : Int :=
  match cs with
  | mark :: rest =>
    if mark = 'e' ∨ mark = 'E' then
      let (negative, ds) := sign rest
      signed negative (value (run ds))
    else 0
  | [] => 0

/-- The fraction at the start of a text and what follows it: a point and digits, or nothing. -/
def fraction : List Char → List Char × List Char
  | '.' :: cs => (run cs, afterRun cs)
  | cs => ([], cs)

/-- A decimal number `± mantissa · 10 ^ power`, as a text spells it. -/
structure Decimal where
  negative : Bool
  mantissa : Nat
  power : Int
deriving DecidableEq, Repr

/-- The nearest float; a magnitude past the greatest one goes to infinity. -/
def Decimal.toFloat (d : Decimal) : Float :=
  let magnitude := Float.ofScientific d.mantissa (d.power < 0) d.power.natAbs
  if d.negative then -magnitude else magnitude

/-- The decimal number at the start of a text, if it has a digit before its exponent. -/
def decimal? (text : String) : Option Decimal :=
  let (negative, cs) := sign (Text.unindented text.toList)
  let whole := run cs
  let (places, rest) := fraction (afterRun cs)
  if (whole ++ places).isEmpty then none
  else some ⟨negative, value (whole ++ places), exponent rest - places.length⟩

/-- The real at the start of a text. -/
def real? (text : String) : Option Float := (decimal? text).map Decimal.toFloat

/-- Whether a text has the shape of a real: an optional minus, digits, and a point after them. -/
def looksReal (text : String) : Bool :=
  let cs := match text.toList with
    | '-' :: cs => cs
    | cs => cs
  (afterRun cs).head? == some '.'

end ScriptHost.Numeral
