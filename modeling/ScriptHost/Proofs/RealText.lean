import Mathlib
import ScriptHost.Proofs.Number.Digits

/-!
# Reals as text

The numerals of reals are the language `realText`. A numeral in its parts is a `Literal`: the
language holds the texts of literals and nothing else (`mem_realText_iff`), and a literal writes a
rational number.

A text that begins with a literal is read as that literal if it does not go on in a way that makes a
longer one. What that takes is said once, part by part, by `Literal.Complete`: no digit follows, no
point where one could stand, no exponent. A literal is complete before the rest of a text exactly if
it is the longest numeral at the start of the text (`complete_iff_longest`). One direction extends a
literal by one step, a digit, a point or an exponent; the other takes the text apart, which can be
done in one way only. Reading a complete literal is one lemma for each part
(`decimal?_of_complete`), so what is read is always the longest numeral, and nothing after it.
-/

set_option autoImplicit false

namespace ScriptHost.Numeral

open Computability

/-! ## The grammar -/

/-- One digit `D`. -/
def digit : Language Char := {w | ∃ c, isDigit c = true ∧ w = [c]}

/-- Digits, `D+`. -/
def digits : Language Char := digit * digit∗

/-- An optional sign, `[+-]?`. -/
def optionalSign : Language Char := 1 + {['+']} + {['-']}

/-- Digits with an optional point among them, `D+ ('.' D*)? | '.' D+`. -/
def pointed : Language Char := digits * (1 + {['.']} * digit∗) + {['.']} * digits

/-- An optional exponent, `([eE] [+-]? D+)?`. -/
def optionalExponent : Language Char := 1 + ({['e']} + {['E']}) * optionalSign * digits

/-- The numerals of reals, `[+-]? (D+ ('.' D*)? | '.' D+) ([eE] [+-]? D+)?`. -/
def realText : Language Char := optionalSign * pointed * optionalExponent

/-- The word is the longest one of the language that the text begins with. -/
structure Longest (language : Language Char) (w text : List Char) : Prop where
  mem : w ∈ language
  within : w <+: text
  longest : ∀ v ∈ language, v <+: text → v.length ≤ w.length

theorem exists_longest {language : Language Char} {w text : List Char} (mem : w ∈ language)
    (within : w <+: text) : ∃ v, Longest language v text := by
  classical
  have taken : text.take w.length ∈ language := by rwa [← List.prefix_iff_eq_take.mp within]
  let most := Nat.findGreatest (fun n => text.take n ∈ language) text.length
  refine ⟨text.take most, ?_, List.take_prefix _ _, ?_⟩
  · exact Nat.findGreatest_spec (P := fun n => text.take n ∈ language) within.length_le taken
  · intro v mem' within'
    have taken' : text.take v.length ∈ language := by rwa [← List.prefix_iff_eq_take.mp within']
    have below : v.length ≤ most := Nat.le_findGreatest within'.length_le taken'
    rw [List.length_take]
    exact le_min below within'.length_le

/-! ## Literals -/

/-- The exponent of a numeral. -/
structure Exponent where
  mark : Char
  sign : SignMark
  digits : List Char
  isMark : mark = 'e' ∨ mark = 'E'
  digit : ∀ c ∈ digits, isDigit c = true
  nonempty : digits ≠ []

namespace Exponent

/-- The characters of an exponent. -/
def text (x : Exponent) : List Char := x.mark :: (x.sign.chars ++ x.digits)

/-- The number that an exponent writes. -/
def number (x : Exponent) : Int :=
  (if x.sign = .minus then -1 else 1) * (Nat.ofDigits 10 (x.digits.reverse.map digitValue) : Nat)

end Exponent

/-- A numeral in its parts: a sign, digits, more digits after a point, and an exponent. -/
structure Literal where
  sign : SignMark
  whole : List Char
  places : Option (List Char)
  power : Option Exponent
  digit : ∀ c ∈ whole ++ places.getD [], isDigit c = true
  nonempty : whole ++ places.getD [] ≠ []

/-- A point and the digits after it. -/
def pointText : Option (List Char) → List Char
  | none => []
  | some ds => '.' :: ds

/-- The characters of an exponent, if there is one. -/
def powerText : Option Exponent → List Char
  | none => []
  | some x => x.text

namespace Literal

/-- The characters after the sign. -/
def body (l : Literal) : List Char := l.whole ++ (pointText l.places ++ powerText l.power)

/-- The characters of a literal. -/
def text (l : Literal) : List Char := l.sign.chars ++ l.body

/-- The number that a literal writes: the digits before the point, those after it as a fraction, and
the exponent as a power of ten. -/
def number (l : Literal) : ℚ :=
  (if l.sign = .minus then -1 else 1) *
    ((Nat.ofDigits 10 (l.whole.reverse.map digitValue) : Nat) +
      (Nat.ofDigits 10 ((l.places.getD []).reverse.map digitValue) : Nat) /
        10 ^ (l.places.getD []).length) *
    10 ^ l.power.elim 0 Exponent.number

/-- The literal as mantissa and power of ten. -/
def decimal (l : Literal) : Decimal :=
  ⟨l.sign.negative, value (l.whole ++ l.places.getD []),
    l.power.elim 0 Exponent.number - (l.places.getD []).length⟩

end Literal

/-- The number that a decimal is. -/
def Decimal.number (d : Decimal) : ℚ := (if d.negative then -1 else 1) * d.mantissa * 10 ^ d.power

variable {l : Literal} {x : Exponent} {w cs rest : List Char}

theorem Literal.number_decimal (l : Literal) : l.decimal.number = l.number := by
  have sign : (if l.sign.negative then (-1 : ℚ) else 1) = if l.sign = .minus then -1 else 1 := by
    cases l.sign <;> rfl
  have ten : (10 : ℚ) ≠ 0 := by norm_num
  simp only [Decimal.number, decimal, number, sign, value_append, ← value_eq_ofDigits]
  rw [zpow_sub₀ ten, zpow_natCast]
  push_cast
  field_simp

/-! ### The language of literals -/

theorem mem_digit_star : w ∈ digit∗ ↔ ∀ c ∈ w, isDigit c = true := by
  rw [Language.mem_kstar]
  constructor
  · rintro ⟨words, rfl, all⟩ c mem
    obtain ⟨word, within, inside⟩ := List.mem_flatten.mp mem
    obtain ⟨d, isDigit, rfl⟩ := all word within
    rwa [List.mem_singleton.mp inside]
  · intro all
    refine ⟨w.map fun c => [c], by simp [← List.flatMap_def], ?_⟩
    intro word mem
    obtain ⟨c, inside, rfl⟩ := List.mem_map.mp mem
    exact ⟨c, all c inside, rfl⟩

theorem mem_digits : w ∈ digits ↔ w ≠ [] ∧ ∀ c ∈ w, isDigit c = true := by
  rw [digits, Language.mem_mul]
  constructor
  · rintro ⟨_, ⟨c, isDigit, rfl⟩, ds, all, rfl⟩
    exact ⟨by simp, List.forall_mem_cons.mpr ⟨isDigit, mem_digit_star.mp all⟩⟩
  · rintro ⟨nonempty, all⟩
    obtain ⟨c, ds, rfl⟩ := List.exists_cons_of_ne_nil nonempty
    obtain ⟨first, more⟩ := List.forall_mem_cons.mp all
    exact ⟨[c], ⟨c, first, rfl⟩, ds, mem_digit_star.mpr more, rfl⟩

theorem mem_optionalSign : w ∈ optionalSign ↔ ∃ m : SignMark, m.chars = w := by
  simp only [optionalSign, Language.mem_add, Language.mem_one]
  constructor
  · rintro ((rfl | rfl) | rfl)
    exacts [⟨.absent, rfl⟩, ⟨.plus, rfl⟩, ⟨.minus, rfl⟩]
  · rintro ⟨m, rfl⟩
    cases m
    exacts [.inl (.inl rfl), .inl (.inr rfl), .inr rfl]

theorem mem_optionalExponent : w ∈ optionalExponent ↔ ∃ x, powerText x = w := by
  simp only [optionalExponent, Language.mem_add, Language.mem_one, Language.mem_mul,
    mem_optionalSign, mem_digits]
  constructor
  · rintro (rfl | ⟨_, ⟨mark, isMark, _, ⟨m, rfl⟩, rfl⟩, ds, ⟨nonempty, all⟩, rfl⟩)
    · exact ⟨none, rfl⟩
    · rcases isMark with rfl | rfl
      · exact ⟨some ⟨'e', m, ds, .inl rfl, all, nonempty⟩, by simp [powerText, Exponent.text]⟩
      · exact ⟨some ⟨'E', m, ds, .inr rfl, all, nonempty⟩, by simp [powerText, Exponent.text]⟩
  · rintro ⟨_ | x, rfl⟩
    · exact .inl rfl
    · refine .inr ⟨[x.mark] ++ x.sign.chars, ⟨[x.mark], ?_, _, ⟨x.sign, rfl⟩, rfl⟩, x.digits,
        ⟨x.nonempty, x.digit⟩, ?_⟩
      · rcases x.isMark with isMark | isMark
        · exact .inl (by rw [isMark]; rfl)
        · exact .inr (by rw [isMark]; rfl)
      · simp [powerText, Exponent.text]

theorem mem_pointed :
    w ∈ pointed ↔ ∃ (whole : List Char) (places : Option (List Char)),
      (∀ c ∈ whole ++ places.getD [], isDigit c = true) ∧ whole ++ places.getD [] ≠ [] ∧
      whole ++ pointText places = w := by
  simp only [pointed, Language.mem_add, Language.mem_one, Language.mem_mul, mem_digits,
    mem_digit_star]
  constructor
  · rintro (⟨whole, ⟨nonempty, all⟩, _, rfl | ⟨_, rfl, ds, more, rfl⟩,
      rfl⟩ | ⟨_, rfl, ds, ⟨nonempty, all⟩, rfl⟩)
    · exact ⟨whole, none, by simpa using all, by simpa using nonempty, rfl⟩
    · exact ⟨whole, some ds, by simpa [or_imp, forall_and] using ⟨all, more⟩,
        by simp [nonempty], rfl⟩
    · exact ⟨[], some ds, by simpa using all, by simpa using nonempty, rfl⟩
  · rintro ⟨whole, places, all, nonempty, rfl⟩
    rcases places with _ | ds
    · exact .inl ⟨whole, ⟨by simpa using nonempty, by simpa using all⟩, [], .inl rfl, rfl⟩
    · have more : ∀ c ∈ ds, isDigit c = true := fun c mem => all c (List.mem_append_right _ mem)
      have first : ∀ c ∈ whole, isDigit c = true := fun c mem => all c (List.mem_append_left _ mem)
      by_cases none : whole = []
      · subst none
        exact .inr ⟨['.'], rfl, ds, ⟨by simpa using nonempty, more⟩, rfl⟩
      · exact .inl ⟨whole, ⟨none, first⟩, '.' :: ds, .inr ⟨['.'], rfl, ds, more, rfl⟩, rfl⟩

/-- **The numerals are the texts of literals.** -/
theorem mem_realText_iff : w ∈ realText ↔ ∃ l : Literal, l.text = w := by
  simp only [realText, Language.mem_mul, mem_optionalSign, mem_pointed, mem_optionalExponent]
  constructor
  · rintro ⟨_, ⟨_, ⟨m, rfl⟩, _, ⟨whole, places, all, nonempty, rfl⟩, rfl⟩, _, ⟨x, rfl⟩, rfl⟩
    exact ⟨⟨m, whole, places, x, all, nonempty⟩, by simp [Literal.text, Literal.body]⟩
  · rintro ⟨l, rfl⟩
    refine ⟨_, ⟨_, ⟨l.sign, rfl⟩, _, ⟨l.whole, l.places, l.digit, l.nonempty, rfl⟩, rfl⟩, _,
      ⟨l.power, rfl⟩, ?_⟩
    simp [Literal.text, Literal.body]

/-! ## Literals that are complete -/

/-- The literal cannot be made longer by what follows it: a digit, an exponent, or a point where
there is neither point nor exponent. -/
structure Literal.Complete (l : Literal) (rest : List Char) : Prop where
  digit : Breaks isDigit rest
  power : l.power = none → ∀ x : Exponent, ¬ x.text <+: rest
  point : l.power = none → l.places = none → Breaks (· == '.') rest

/-! ### What each part begins with -/

theorem isDigit_mark (x : Exponent) : isDigit x.mark = false := by
  rcases x.isMark with isMark | isMark <;> rw [isMark] <;> decide

/-- Neither a point nor an exponent goes on with a digit. -/
theorem breaks_powerText (power : Option Exponent) (breaks : Breaks isDigit rest) :
    Breaks isDigit (powerText power ++ rest) := by
  cases power with
  | none => exact breaks
  | some x => exact breaks_cons.mpr (isDigit_mark x)

theorem breaks_pointText (places : Option (List Char)) (breaks : Breaks isDigit rest) :
    Breaks isDigit (pointText places ++ rest) := by
  cases places with
  | none => exact breaks
  | some ds => exact breaks_cons.mpr (by decide)

/-- A literal without a point does not go on with one, if it is complete. -/
theorem Literal.Complete.breaks_point (complete : l.Complete rest) (none : l.places = none) :
    Breaks (· == '.') (powerText l.power ++ rest) := by
  cases power : l.power with
  | none => exact complete.point power none
  | some x =>
    apply breaks_cons.mpr
    rcases x.isMark with isMark | isMark <;> rw [isMark] <;> decide

/-- What follows the sign of an exponent is a digit, and no second sign. -/
theorem Exponent.unsigned (x : Exponent) : Breaks isSign (x.digits ++ rest) :=
  breaks_of_nonempty x.nonempty fun c mem => isSign_of_isDigit (x.digit c mem)

/-- What follows the sign of a literal is a digit or a point, and no second sign. -/
theorem Literal.unsigned (l : Literal) : Breaks isSign (l.body ++ rest) := by
  cases whole : l.whole with
  | cons c ds =>
    rw [body, whole]
    exact breaks_cons.mpr (isSign_of_isDigit (l.digit c (by simp [whole])))
  | nil =>
    cases places : l.places with
    | none => exact absurd (by simp [whole, places]) l.nonempty
    | some ds =>
      rw [body, whole, places]
      exact breaks_cons.mpr (by decide)

/-! ### Reading a complete literal -/

/-- An exponent is read up to the end of its digits. -/
theorem exponent_text (x : Exponent) (breaks : Breaks isDigit rest) :
    exponent (x.text ++ rest) = x.number := by
  have read : sign (x.sign.chars ++ (x.digits ++ rest)) = (x.sign.negative, x.digits ++ rest) :=
    sign_append x.sign fun _ => x.unsigned
  have digits : run (x.digits ++ rest) = x.digits := takeWhile_append_of_breaks x.digit breaks
  have number : signed x.sign.negative (value x.digits) = x.number := by
    rw [Exponent.number, ← value_eq_ofDigits, signed]
    cases x.sign <;> simp [SignMark.negative]
  rw [Exponent.text, List.cons_append, List.append_assoc, exponent]
  simp only [x.isMark, if_true, read, digits, number]

/-- A mark without digits is no exponent, and counts as nothing. -/
theorem exponent_eq_zero (none : ∀ x : Exponent, ¬ x.text <+: cs) : exponent cs = 0 := by
  cases cs with
  | nil => rfl
  | cons mark more =>
    rw [exponent]
    split
    next isMark =>
      obtain ⟨m, ds, rfl, unsigned⟩ := exists_signMark more
      rw [sign_append m unsigned]
      -- with a digit there would be an exponent
      have empty : run ds = [] := by
        by_contra nonempty
        refine none ⟨mark, m, run ds, isMark, fun c mem => List.mem_takeWhile_imp mem,
          nonempty⟩ ⟨afterRun ds, ?_⟩
        simp [Exponent.text, run, afterRun]
      show signed m.negative (value (run ds)) = 0
      rw [empty]
      cases m <;> rfl
    next => rfl

/-- The digits after the point are read, and none where there is no point. -/
theorem fraction_pointText {places : Option (List Char)}
    (digit : ∀ c ∈ places.getD [], isDigit c = true) (breaks : Breaks isDigit rest)
    (point : places = none → Breaks (· == '.') rest) :
    fraction (pointText places ++ rest) = (places.getD [], rest) := by
  cases places with
  | none =>
    have other := point rfl
    show fraction rest = ([], rest)
    unfold fraction
    split
    · simp at other
    · rfl
  | some ds =>
    have digit : ∀ c ∈ ds, isDigit c = true := digit
    show (run (ds ++ rest), afterRun (ds ++ rest)) = (ds, rest)
    rw [run, afterRun, takeWhile_append_of_breaks digit breaks,
      dropWhile_append_of_breaks digit breaks]

/-- **A complete literal is read.** -/
theorem decimal?_of_complete {s : String} (complete : l.Complete rest)
    (begins : Text.unindented s.toList = l.text ++ rest) : decimal? s = some l.decimal := by
  have read : sign (Text.unindented s.toList) = (l.sign.negative, l.body ++ rest) := by
    rw [begins, Literal.text, List.append_assoc, sign_append l.sign fun _ => l.unsigned]
  have afterPoint : Breaks isDigit (powerText l.power ++ rest) :=
    breaks_powerText l.power complete.digit
  have afterWhole : Breaks isDigit (pointText l.places ++ (powerText l.power ++ rest)) :=
    breaks_pointText l.places afterPoint
  have split : l.body ++ rest = l.whole ++ (pointText l.places ++ (powerText l.power ++ rest)) := by
    simp only [Literal.body, List.append_assoc]
  have whole : ∀ c ∈ l.whole, isDigit c = true :=
    fun c mem => l.digit c (List.mem_append_left _ mem)
  have places : ∀ c ∈ l.places.getD [], isDigit c = true :=
    fun c mem => l.digit c (List.mem_append_right _ mem)
  have taken : run (l.body ++ rest) = l.whole := by
    rw [split, run, takeWhile_append_of_breaks whole afterWhole]
  have left : afterRun (l.body ++ rest) = pointText l.places ++ (powerText l.power ++ rest) := by
    rw [split, afterRun, dropWhile_append_of_breaks whole afterWhole]
  have pointed := fraction_pointText places afterPoint complete.breaks_point
  have power : exponent (powerText l.power ++ rest) = l.power.elim 0 Exponent.number := by
    cases power : l.power with
    | none => exact exponent_eq_zero (complete.power power)
    | some x => exact exponent_text x complete.digit
  simp only [decimal?, read, taken, left, pointed, power, List.isEmpty_iff, l.nonempty, if_false]
  rfl

/-- Where a number is read, the text begins with a literal. -/
theorem exists_literal {s : String} (read : decimal? s ≠ none) :
    ∃ l : Literal, l.text <+: Text.unindented s.toList := by
  obtain ⟨m, ds, begins, unsigned⟩ := exists_signMark (Text.unindented s.toList)
  have signed : sign (Text.unindented s.toList) = (m.negative, ds) := by
    rw [begins, sign_append m unsigned]
  rw [begins]
  by_cases none : run ds = []
  · -- the digits come after a point
    have point : ∃ more, ds = '.' :: more ∧ run more ≠ [] := by
      have all : afterRun ds = ds := by
        have parts := List.takeWhile_append_dropWhile (p := isDigit) (l := ds)
        rwa [← run, none, List.nil_append] at parts
      simp only [decimal?, signed, none, all, List.nil_append, List.isEmpty_iff] at read
      unfold fraction at read
      split at read
      next more => exact ⟨more, rfl, fun empty => read (by simp [empty])⟩
      next => exact absurd rfl read
    obtain ⟨more, rfl, nonempty⟩ := point
    refine ⟨⟨m, [], some (run more), .none, fun c mem => List.mem_takeWhile_imp mem, nonempty⟩,
      afterRun more, ?_⟩
    simp [Literal.text, Literal.body, pointText, powerText, run, afterRun]
  · refine ⟨⟨m, run ds, .none, .none, ?_, by simpa using none⟩, afterRun ds, ?_⟩
    · intro c mem
      rw [Option.getD_none, List.append_nil] at mem
      exact List.mem_takeWhile_imp mem
    · simp [Literal.text, Literal.body, pointText, powerText, run, afterRun]

/-! ### The longest numeral -/

/-- A digit makes a literal longer: it belongs to the last run of digits. -/
theorem Literal.exists_digit (l : Literal) {c : Char} (isDigit : isDigit c = true) :
    ∃ m : Literal, m.text = l.text ++ [c] := by
  obtain ⟨sign, whole, places, power, digit, nonempty⟩ := l
  have one : ∀ d ∈ [c], Numeral.isDigit d = true := by simpa using isDigit
  rcases power with _ | x
  · rcases places with _ | ds
    · refine ⟨⟨sign, whole ++ [c], none, none, ?_, by simp⟩,
        by simp [text, body, pointText, powerText]⟩
      simpa [or_imp, forall_and, isDigit] using digit
    · refine ⟨⟨sign, whole, some (ds ++ [c]), none, ?_, by simp⟩,
        by simp [text, body, pointText, powerText]⟩
      have all := List.forall_mem_append.mpr ⟨digit, one⟩
      simpa using all
  · let longer : Exponent := ⟨x.mark, x.sign, x.digits ++ [c], x.isMark,
      List.forall_mem_append.mpr ⟨x.digit, one⟩, by simp⟩
    exact ⟨⟨sign, whole, places, some longer, digit, nonempty⟩,
      by simp [text, body, powerText, Exponent.text, longer]⟩

/-- A point makes a literal longer that has neither a point nor an exponent. -/
theorem Literal.exists_point (l : Literal) (unpowered : l.power = none)
    (unpointed : l.places = none) : ∃ m : Literal, m.text = l.text ++ ['.'] := by
  obtain ⟨sign, whole, places, power, digit, nonempty⟩ := l
  obtain rfl : power = none := unpowered
  obtain rfl : places = none := unpointed
  exact ⟨⟨sign, whole, some [], none, digit, nonempty⟩, by simp [text, body, pointText, powerText]⟩

/-- An exponent makes a literal longer that has none. -/
theorem Literal.exists_power (l : Literal) (unpowered : l.power = none) (x : Exponent) :
    ∃ m : Literal, m.text = l.text ++ x.text := by
  obtain ⟨sign, whole, places, power, digit, nonempty⟩ := l
  obtain rfl : power = none := unpowered
  exact ⟨⟨sign, whole, places, some x, digit, nonempty⟩, by simp [text, body, powerText]⟩

/-- The longest numeral is complete: what could follow it would make it longer. -/
theorem Literal.complete_of_longest (longest : Longest realText l.text (l.text ++ rest)) :
    l.Complete rest := by
  have maximal : ∀ (m : Literal) (more : List Char), more ≠ [] → more <+: rest →
      m.text ≠ l.text ++ more := by
    intro m more nonempty within same
    have shorter := longest.longest m.text (mem_realText_iff.mpr ⟨m, rfl⟩)
      (same ▸ (List.prefix_append_right_inj _).mpr within)
    rw [same, List.length_append] at shorter
    have positive := List.length_pos_iff.mpr nonempty
    omega
  have single : ∀ c ∈ rest.head?, [c] <+: rest := by
    intro c first
    obtain ⟨more, rfl⟩ := List.head?_eq_some_iff.mp first
    exact ⟨more, rfl⟩
  constructor
  · intro c first
    by_contra isDigit
    obtain ⟨m, same⟩ := l.exists_digit (Bool.eq_true_of_not_eq_false isDigit)
    exact maximal m [c] (by simp) (single c first) same
  · intro unpowered x within
    obtain ⟨m, same⟩ := l.exists_power unpowered x
    exact maximal m x.text (by simp [Exponent.text]) within same
  · intro unpowered unpointed c first
    by_contra point
    obtain rfl : c = '.' := by simpa using point
    obtain ⟨m, same⟩ := l.exists_point unpowered unpointed
    exact maximal m ['.'] (by simp) (single _ first) same

/-- Runs of digits that end are told apart from what follows in one way only. -/
theorem run_inj {ds es more : List Char} (same : ds ++ rest = es ++ more)
    (left : ∀ c ∈ ds, isDigit c = true) (right : ∀ c ∈ es, isDigit c = true)
    (leftEnds : Breaks isDigit rest) (rightEnds : Breaks isDigit more) : ds = es ∧ rest = more := by
  constructor
  · rw [← takeWhile_append_of_breaks left leftEnds, same,
      takeWhile_append_of_breaks right rightEnds]
  · rw [← dropWhile_append_of_breaks left leftEnds, same,
      dropWhile_append_of_breaks right rightEnds]

theorem powerText_inj {p q : Option Exponent} {more : List Char}
    (same : powerText p ++ rest = powerText q ++ more) (left : Breaks isDigit rest)
    (right : Breaks isDigit more) (leftNone : p = none → ∀ x : Exponent, ¬ x.text <+: rest)
    (rightNone : q = none → ∀ x : Exponent, ¬ x.text <+: more) :
    powerText p = powerText q ∧ rest = more := by
  rcases p with _ | x <;> rcases q with _ | y
  · exact ⟨rfl, same⟩
  · exact absurd ⟨more, same.symm⟩ (leftNone rfl y)
  · exact absurd ⟨rest, same⟩ (rightNone rfl x)
  · simp only [powerText, Exponent.text, List.cons_append, List.append_assoc,
      List.cons.injEq] at same ⊢
    obtain ⟨mark, signed⟩ := same
    obtain ⟨sign, run⟩ := signMark_inj signed (fun _ => x.unsigned) fun _ => y.unsigned
    obtain ⟨digits, ends⟩ := run_inj run x.digit y.digit left right
    exact ⟨⟨mark, by rw [sign, digits]⟩, ends⟩

theorem pointText_inj {p q : Option (List Char)} {more : List Char}
    (same : pointText p ++ rest = pointText q ++ more) (left : ∀ c ∈ p.getD [], isDigit c = true)
    (right : ∀ c ∈ q.getD [], isDigit c = true) (leftEnds : Breaks isDigit rest)
    (rightEnds : Breaks isDigit more) (leftNone : p = none → Breaks (· == '.') rest)
    (rightNone : q = none → Breaks (· == '.') more) : p = q ∧ rest = more := by
  rcases p with _ | ds <;> rcases q with _ | es
  · exact ⟨rfl, same⟩
  · obtain rfl : rest = '.' :: (es ++ more) := same
    exact absurd (breaks_cons.mp (leftNone rfl)) (by decide)
  · obtain rfl : more = '.' :: (ds ++ rest) := same.symm
    exact absurd (breaks_cons.mp (rightNone rfl)) (by decide)
  · obtain ⟨digits, ends⟩ := run_inj (List.cons.inj same).2 left right leftEnds rightEnds
    exact ⟨congrArg some digits, ends⟩

/-- A text begins with one complete literal only. -/
theorem Literal.Complete.text_eq {m : Literal} {more : List Char} (left : l.Complete rest)
    (right : m.Complete more) (same : l.text ++ rest = m.text ++ more) : l.text = m.text := by
  simp only [Literal.text, List.append_assoc] at same
  obtain ⟨sign, bodies⟩ := signMark_inj same (fun _ => l.unsigned) fun _ => m.unsigned
  simp only [Literal.body, List.append_assoc] at bodies
  have leftPower := breaks_powerText l.power left.digit
  have rightPower := breaks_powerText m.power right.digit
  obtain ⟨whole, points⟩ := run_inj bodies (fun c mem => l.digit c (List.mem_append_left _ mem))
    (fun c mem => m.digit c (List.mem_append_left _ mem)) (breaks_pointText _ leftPower)
    (breaks_pointText _ rightPower)
  obtain ⟨places, powers⟩ :=
    pointText_inj points (fun c mem => l.digit c (List.mem_append_right _ mem))
    (fun c mem => m.digit c (List.mem_append_right _ mem)) leftPower rightPower left.breaks_point
      right.breaks_point
  obtain ⟨power, -⟩ := powerText_inj powers left.digit right.digit left.power right.power
  rw [Literal.text, Literal.text, Literal.body, Literal.body, sign, whole, places, power]

/-- Where a text begins with a numeral, it begins with a longest one. -/
theorem exists_longest_literal {text : List Char} (mem : w ∈ realText) (within : w <+: text) :
    ∃ m : Literal, Longest realText m.text text := by
  obtain ⟨v, longest⟩ := exists_longest mem within
  obtain ⟨m, rfl⟩ := mem_realText_iff.mp longest.mem
  exact ⟨m, longest⟩

/-- **A literal is complete before the rest of a text exactly if it is the longest numeral at its
start.** -/
theorem Literal.complete_iff_longest :
    l.Complete rest ↔ Longest realText l.text (l.text ++ rest) := by
  refine ⟨fun complete => ?_, Literal.complete_of_longest⟩
  have mem : l.text ∈ realText := mem_realText_iff.mpr ⟨l, rfl⟩
  refine ⟨mem, List.prefix_append _ _, ?_⟩
  intro v numeral within
  obtain ⟨m, longest⟩ := exists_longest_literal numeral within
  obtain ⟨more, begins⟩ := longest.within
  have other : m.Complete more := Literal.complete_of_longest (begins ▸ longest)
  rw [complete.text_eq other begins.symm]
  exact longest.longest v numeral within

/-- What a literal leaves unread: a sign, a point after a point or an exponent, and a mark that
comes after an exponent or has no digits. -/
inductive Literal.Leaves (l : Literal) : List Char → Prop
  | sign {c : Char} (more : List Char) (isSign : isSign c = true) : l.Leaves (c :: more)
  | point (more : List Char) (second : l.places ≠ none ∨ l.power ≠ none) : l.Leaves ('.' :: more)
  | mark {c : Char} (m : SignMark) (more : List Char) (isMark : c = 'e' ∨
      c = 'E') (unsigned : m = .absent → Breaks isSign more)
      (bare : Breaks isDigit more) : l.Leaves (c :: (m.chars ++ more))
  | second {c : Char} (more : List Char) (isMark : c = 'e' ∨ c = 'E') (power : l.power ≠ none) :
    l.Leaves (c :: more)

/-- A literal is complete before what it leaves unread. -/
theorem Literal.complete_of_leaves {tail : List Char} (leaves : l.Leaves tail) :
    l.Complete tail := by
  -- an exponent begins with its mark
  have first : ∀ {c : Char} {more : List Char} {x : Exponent}, x.text <+: c :: more →
      (c = 'e' ∨ c = 'E') ∧ x.sign.chars ++ x.digits <+: more := by
    intro c more x within
    obtain ⟨mark, inner⟩ := List.cons_prefix_cons.mp within
    exact ⟨mark ▸ x.isMark, inner⟩
  cases leaves with
  | @sign c more isSign =>
    have other : isDigit c = false ∧ ¬ (c = 'e' ∨ c = 'E') ∧ (c == '.') = false := by
      simp only [Numeral.isSign, Bool.or_eq_true, beq_iff_eq] at isSign
      rcases isSign with rfl | rfl <;> decide
    exact ⟨breaks_cons.mpr other.1, fun _ x within => other.2.1 (first within).1,
      fun _ _ => breaks_cons.mpr other.2.2⟩
  | point more second =>
    refine ⟨breaks_cons.mpr (by decide), fun _ x within => absurd (first within).1 (by decide),
      fun unpowered unpointed => ?_⟩
    exact absurd second (by simp [unpowered, unpointed])
  | @mark c m more isMark unsigned bare =>
    have other : isDigit c = false ∧ (c == '.') = false := by
      rcases isMark with rfl | rfl <;> decide
    refine ⟨breaks_cons.mpr other.1, fun _ x within => ?_, fun _ _ => breaks_cons.mpr other.2⟩
    obtain ⟨after, same⟩ := (first within).2
    rw [List.append_assoc] at same
    obtain ⟨-, rfl⟩ := signMark_inj same (fun _ => x.unsigned) unsigned
    obtain ⟨d, ds, digits⟩ := List.exists_cons_of_ne_nil x.nonempty
    rw [digits] at bare
    have isDigit := x.digit d (by simp [digits])
    exact absurd (breaks_cons.mp bare) (by simp [isDigit])
  | @second c more isMark power =>
    have other : isDigit c = false := by rcases isMark with rfl | rfl <;> decide
    exact ⟨breaks_cons.mpr other, fun unpowered => absurd unpowered power,
      fun unpowered => absurd unpowered power⟩

/-- The longest numeral at the start of a text is read. -/
theorem decimal?_of_longest {s : String}
    (longest : Longest realText l.text (Text.unindented s.toList)) :
    decimal? s = some l.decimal := by
  obtain ⟨rest, begins⟩ := longest.within
  exact decimal?_of_complete (Literal.complete_of_longest (begins ▸ longest)) begins.symm

theorem decimal?_eq_none_iff {s : String} :
    decimal? s = none ↔ ∀ w ∈ realText, ¬ w <+: Text.unindented s.toList := by
  constructor
  · intro none w numeral within
    obtain ⟨l, longest⟩ := exists_longest_literal numeral within
    rw [decimal?_of_longest longest] at none
    cases none
  · intro nowhere
    by_contra read
    obtain ⟨l, within⟩ := exists_literal read
    exact nowhere l.text (mem_realText_iff.mpr ⟨l, rfl⟩) within

/-- Where a number is read, it is that of the longest numeral. -/
theorem exists_longest_of_read {s : String} (read : decimal? s ≠ none) :
    ∃ l : Literal, Longest realText l.text (Text.unindented s.toList) := by
  obtain ⟨l, within⟩ := exists_literal read
  exact exists_longest_literal (mem_realText_iff.mpr ⟨l, rfl⟩) within

/-- **Reals are read from text.** The numerals are the texts of literals, and a literal stands for
the number that it writes. Nothing is read from a text exactly if no numeral stands at its start,
after blanks. Otherwise the longest numeral there is read, converted to a real. So nothing after it
matters, and a sign, a second point, a mark without digits or a second mark is left unread. -/
theorem real_text_read :
    (∀ w, w ∈ realText ↔ ∃ l : Literal, l.text = w) ∧
    (∀ l : Literal, l.decimal.number = l.number) ∧
    (∀ s : String,
      (real? s = none ↔ ∀ w ∈ realText, ¬ w <+: Text.unindented s.toList) ∧
      (real? s ≠ none → ∃ l : Literal, Longest realText l.text (Text.unindented s.toList)) ∧
      ∀ l : Literal, Longest realText l.text (Text.unindented s.toList) →
      real? s = some l.decimal.toFloat) ∧
    (∀ (l : Literal) (tail : List Char), l.Leaves tail → Longest realText l.text (l.text ++ tail)) ∧
    ∀ (s t : String) (w : List Char), Longest realText w (Text.unindented s.toList) →
      Longest realText w (Text.unindented t.toList) → real? s = real? t := by
  refine ⟨fun _ => mem_realText_iff, Literal.number_decimal, ?_, ?_, ?_⟩
  · intro s
    have none : real? s = none ↔ decimal? s = none := Option.map_eq_none_iff
    refine ⟨none.trans decimal?_eq_none_iff,
      fun read => exists_longest_of_read (mt none.mpr read), ?_⟩
    intro l longest
    rw [real?, decimal?_of_longest longest]
    rfl
  · exact fun l tail leaves => Literal.complete_iff_longest.mp (Literal.complete_of_leaves leaves)
  · intro s t w first second
    obtain ⟨l, rfl⟩ := mem_realText_iff.mp first.mem
    rw [real?, real?, decimal?_of_longest first, decimal?_of_longest second]

/-- A numeral before a mark and a sign that no digit follows. -/
theorem real_text_read_dangling : real? " -12.5e+x" = some (-12.5) := by
  obtain ⟨-, -, reads, leaves, -⟩ := real_text_read
  let l : Literal :=
    ⟨.minus, ['1', '2'], some ['5'], none, List.all_eq_true.mp (by decide), by decide⟩
  have longest := leaves l _ (.mark .plus ['x'] (.inl rfl) nofun (breaks_cons.mpr (by decide)))
  exact (reads " -12.5e+x").2.2 l longest

end ScriptHost.Numeral
