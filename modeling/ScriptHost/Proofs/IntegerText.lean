import ScriptHost.Proofs.Host.Conversions
import ScriptHost.Proofs.Number.Digits
import ScriptHost.Proofs.Stepping

/-!
# Integers as text

A text is read as an integer by its beginning. It has the parts of `IntegerParts`, blanks, a sign,
digits and a rest, in exactly one way in which each part is taken as far as it goes
(`IntegerParts.Maximal`). What is read is the number that sign and digits write, if there is a digit
and the number is an integer of the language; the rest plays no part (`integer?_of_parts`).

An integer is written with a minus, if it is negative, and its digits, so it is read back from any
text that begins with it after blanks and does not go on with a digit (`integer?_text`). The
conversions of the library, one after the other, therefore give the integer back.
-/

set_option autoImplicit false

namespace ScriptHost

namespace Numeral

/-- A text in the parts by which it is read as an integer. -/
structure IntegerParts where
  blanks : List Char
  mark : SignMark
  digits : List Char
  rest : List Char

namespace IntegerParts

/-- The parts one after the other. -/
def text (p : IntegerParts) : List Char := p.blanks ++ (p.mark.chars ++ (p.digits ++ p.rest))

/-- The blanks, the sign and the digits are taken as far as they go. -/
structure Maximal (p : IntegerParts) : Prop where
  blank : ∀ c ∈ p.blanks, Text.isBlank c = true
  unblank : Breaks Text.isBlank (p.mark.chars ++ (p.digits ++ p.rest))
  unsigned : p.mark = .absent → Breaks isSign (p.digits ++ p.rest)
  digit : ∀ c ∈ p.digits, isDigit c = true
  ended : Breaks isDigit p.rest

/-- The number that sign and digits write: every digit at the power of ten of its place, and all of
it below zero after a minus. -/
def number (p : IntegerParts) : Int :=
  (if p.mark = .minus then -1 else 1) * (Nat.ofDigits 10 (p.digits.reverse.map digitValue) : Nat)

variable {p q : IntegerParts} {s : String}

theorem signed_eq_number (p : IntegerParts) :
    signed p.mark.negative (value p.digits) = p.number := by
  rw [number, ← value_eq_ofDigits, signed]
  cases p.mark <;> simp [SignMark.negative]

theorem unindented_text (maximal : p.Maximal) :
    Text.unindented p.text = p.mark.chars ++ (p.digits ++ p.rest) :=
  dropWhile_append_of_breaks maximal.blank maximal.unblank

/-- Every text has its parts. -/
theorem exists_maximal (text : List Char) : ∃ p : IntegerParts, p.text = text ∧ p.Maximal := by
  obtain ⟨mark, body, split, unsigned⟩ := exists_signMark (text.dropWhile Text.isBlank)
  refine ⟨⟨text.takeWhile Text.isBlank, mark, body.takeWhile isDigit, body.dropWhile isDigit⟩, ?_,
    ?_⟩
  · simp only [IntegerParts.text, List.takeWhile_append_dropWhile, ← split]
  · constructor
    · exact fun c mem => List.mem_takeWhile_imp mem
    · simp only [List.takeWhile_append_dropWhile, ← split]
      exact breaks_dropWhile _ _
    · simpa only [List.takeWhile_append_dropWhile] using unsigned
    · exact fun c mem => List.mem_takeWhile_imp mem
    · exact breaks_dropWhile _ _

/-- A text has its parts in one way only: each is what is left of the text once those before it are
taken. -/
theorem Maximal.unique (left : p.Maximal) (right : q.Maximal) (same : p.text = q.text) : p = q := by
  have blanks : p.blanks = q.blanks := by
    rw [← takeWhile_append_of_breaks left.blank left.unblank,
      ← takeWhile_append_of_breaks right.blank right.unblank]
    exact congrArg (List.takeWhile Text.isBlank) same
  have signed : p.mark.chars ++ (p.digits ++ p.rest) = q.mark.chars ++ (q.digits ++ q.rest) := by
    rw [← unindented_text left, ← unindented_text right, same]
  obtain ⟨mark, body⟩ := signMark_inj signed left.unsigned right.unsigned
  have digits : p.digits = q.digits := by
    rw [← takeWhile_append_of_breaks left.digit left.ended,
      ← takeWhile_append_of_breaks right.digit right.ended, body]
  have rest : p.rest = q.rest := by
    rw [← dropWhile_append_of_breaks left.digit left.ended,
      ← dropWhile_append_of_breaks right.digit right.ended, body]
  cases p
  cases q
  simp_all

/-- **A text of known parts** is read as the number that they write. -/
theorem integer?_of_parts (maximal : p.Maximal) (written : p.text = s.toList) :
    integer? s = if p.digits = [] then none else Integer.ofInt? p.number := by
  have read : sign (Text.unindented s.toList) = (p.mark.negative, p.digits ++ p.rest) := by
    rw [← written, unindented_text maximal, sign_append p.mark maximal.unsigned]
  have digits : run (p.digits ++ p.rest) = p.digits :=
    takeWhile_append_of_breaks maximal.digit maximal.ended
  simp only [integer?, read, digits, List.isEmpty_iff, signed_eq_number]

end IntegerParts

/-! ## Writing an integer and reading it back -/

variable {i : Integer} {blanks rest : List Char}

/-- The sign that an integer is written with. -/
def signOf (i : Int) : SignMark := if i < 0 then .minus else .absent

theorem toList_text (i : Integer) :
    i.text.toList = (signOf i.toInt).chars ++ Nat.toDigits 10 i.toInt.natAbs := by
  rw [Integer.text, Int.toString_eq_repr]
  cases i.toInt with
  | ofNat n =>
    have minus : signOf (.ofNat n) = .absent := if_neg (by simp)
    have written : (Int.ofNat n).repr = n.repr := rfl
    rw [minus, written, Nat.repr_eq_ofList_toDigits, String.toList_ofList]
    rfl
  | negSucc n =>
    have minus : signOf (.negSucc n) = .minus := if_pos (Int.negSucc_lt_zero n)
    have written : (Int.negSucc n).repr = "-" ++ (n + 1).repr := rfl
    rw [minus, written, String.toList_append, Nat.repr_eq_ofList_toDigits,
      String.toList_ofList (l := Nat.toDigits 10 (n + 1))]
    rfl

/-- The parts of a text that begins with an integer after blanks. -/
def partsOf (blanks : List Char) (i : Int) (rest : List Char) : IntegerParts :=
  ⟨blanks, signOf i, Nat.toDigits 10 i.natAbs, rest⟩

theorem maximal_partsOf (blank : ∀ c ∈ blanks, Text.isBlank c = true) (ended : Breaks isDigit rest)
    (i : Int) : (partsOf blanks i rest).Maximal := by
  have digit : ∀ c ∈ Nat.toDigits 10 i.natAbs, isDigit c = true := fun c => isDigit_of_mem_toDigits
  have breaks : ∀ {p : Char → Bool}, (∀ c, isDigit c = true → p c = false) →
      Breaks p (Nat.toDigits 10 i.natAbs ++ rest) :=
    fun other => breaks_of_nonempty Nat.toDigits_ne_nil fun c mem => other c (digit c mem)
  refine ⟨blank, ?_, fun _ => breaks fun _ => isSign_of_isDigit, digit, ended⟩
  show Breaks Text.isBlank ((signOf i).chars ++ (Nat.toDigits 10 i.natAbs ++ rest))
  unfold signOf
  split
  · exact breaks_cons.mpr (by decide)
  · exact breaks fun _ => isBlank_of_isDigit

theorem number_partsOf (blanks rest : List Char) (i : Int) :
    (partsOf blanks i rest).number = i := by
  rw [← IntegerParts.signed_eq_number]
  show signed (signOf i).negative (value (Nat.toDigits 10 i.natAbs)) = i
  rw [value_toDigits, signed, signOf]
  split
  next negative =>
    show -(i.natAbs : Int) = i
    omega
  next nonnegative =>
    show (i.natAbs : Int) = i
    omega

/-- **An integer is read back**, also after blanks and before anything but a digit. -/
theorem integer?_text (i : Integer) {before after : String}
    (blank : ∀ c ∈ before.toList, Text.isBlank c = true) (ended : Breaks isDigit after.toList) :
    integer? (before ++ i.text ++ after) = some i := by
  have written : (partsOf before.toList i.toInt after.toList).text =
      (before ++ i.text ++ after).toList := by
    simp only [String.toList_append, toList_text, IntegerParts.text, partsOf, List.append_assoc]
  have some : (partsOf before.toList i.toInt after.toList).digits ≠ [] := Nat.toDigits_ne_nil
  rw [IntegerParts.integer?_of_parts (maximal_partsOf blank ended i.toInt) written, if_neg some,
    number_partsOf, Integer.ofInt?_toInt]

theorem integer?_whole (i : Integer) : integer? i.text = some i := by
  have whole : integer? ("" ++ i.text ++ "") = some i := integer?_text i (by simp) breaks_nil
  rwa [String.empty_append, String.append_empty] at whole

/-- An integer does not look like a real: nothing follows its digits. -/
theorem looksReal_text (i : Integer) : looksReal i.text = false := by
  have digit : ∀ c ∈ Nat.toDigits 10 i.toInt.natAbs, isDigit c = true :=
    fun c => isDigit_of_mem_toDigits
  have last : afterRun (Nat.toDigits 10 i.toInt.natAbs) = [] := List.dropWhile_eq_nil_iff.mpr digit
  by_cases negative : i.toInt < 0
  · have written : i.text.toList = '-' :: Nat.toDigits 10 i.toInt.natAbs := by
      rw [toList_text, signOf, if_pos negative]
      rfl
    rw [looksReal, written]
    show ((afterRun (Nat.toDigits 10 i.toInt.natAbs)).head? == some '.') = false
    rw [last]
    rfl
  · have written : i.text.toList = Nat.toDigits 10 i.toInt.natAbs := by
      rw [toList_text, signOf, if_neg negative]
      rfl
    rw [looksReal, written]
    split
    next ds first =>
      -- a digit is no minus
      exact absurd (digit '-' (first ▸ List.mem_cons_self)) (by decide)
    next =>
      rw [last]
      rfl

end Numeral

theorem Integer.ofInt?_eq_none_iff {i : Int} : ofInt? i = none ↔ i < least ∨ greatest < i := by
  rw [ofInt?]
  split <;> simp <;> omega

namespace Data

variable {ρ : Type}

/-- The text of an integer is read as the integer, with blanks before it and anything but a digit
after it. -/
theorem asInteger_text (i : Integer) {before after : String}
    (blank : ∀ c ∈ before.toList, Text.isBlank c = true)
    (ended : Numeral.Breaks Numeral.isDigit after.toList) :
    asInteger (.leaf (.string (before ++ i.text ++ after)) : Data ρ) = .ok i := by
  simp only [asInteger, readInteger, Numeral.integer?_text i blank ended]

end Data

/-- The text of an integer spells the integer. -/
theorem numeral_text (i : Integer) : numeral i.text = .ok (.integer i none) := by
  simp only [numeral, Numeral.looksReal_text, Bool.false_eq_true, if_false, readInteger,
    Numeral.integer?_whole]
  rfl

namespace Host

open HostM Numeral

theorem convert_mem {k : Kind} (scalar : k = .boolean ∨ k = .integer ∨ k = .real ∨ k = .string) :
    .convert k ∈ Routine.all := by
  rcases scalar with rfl | rfl | rfl | rfl <;> decide +kernel

theorem numeralOf_mem : Routine.numeralOf ∈ Routine.all := by decide +kernel

/-- **Integers are read from text.** A text is, in exactly one way, blanks, a sign, digits and a
rest, each taken as far as it goes. Without a digit, and where sign and digits write a number that
is no integer of the language, nothing is read; otherwise that number is read, whatever the rest is.
So the text of an integer, after any blanks and before anything but a digit, is read as the integer,
and the text alone spells it. The conversions of the library do the same: the text of an integer
that one of them makes, the others turn into the integer again. A host that has kept its library
offers them. -/
theorem integer_text_read :
    (∀ s : String,
      (∃! p : IntegerParts, p.text = s.toList ∧ p.Maximal) ∧
      ∀ p : IntegerParts, p.text = s.toList → p.Maximal →
        (integer? s = none ↔ p.digits = [] ∨ p.number < Integer.least ∨
          Integer.greatest < p.number) ∧
        ∀ i, integer? s = some i ↔ p.digits ≠ [] ∧ i.toInt = p.number) ∧
    (∀ (i : Integer) (bounds : Option (Bounds Integer)), ∃ text,
      (.leaf (.integer i bounds) : Data Handle).asString = .ok text ∧
      numeral text = .ok (.integer i none) ∧
      ∀ before after : String, (∀ c ∈ before.toList, Text.isBlank c = true) →
      Breaks isDigit after.toList →
        (.leaf (.string (before ++ text ++ after)) : Data Handle).asInteger = .ok i) ∧
    (∀ (s : Host) (v : Handle) (i : Integer) (bounds : Option (Bounds Integer))
      (toText toInteger toNumber : String) (n : Nat), s.heap.data v = .leaf (.integer i bounds) →
      s.Ready 1 → s.Offers toText (.convert .string) →
      s.Offers toInteger (.convert .integer) → s.Offers toNumber .numeralOf →
      ∃ w t, call (.free (n + 1)) toText [v] s = .ok w t ∧ s.Still t ∧
      t.heap.data w = .leaf (.string i.text) ∧
        t.Answers (n + 1) toInteger w (.ok (.integer i none)) ∧
        t.Answers (n + 1) toNumber w (.ok (.integer i none))) ∧
    ∀ (s : Host) (settings : Settings), WatchedRun Fence.aroundTable.watch (start settings) s →
      s.Offers (marked "AsString") (.convert .string) ∧
      s.Offers (marked "AsInteger") (.convert .integer) ∧
      s.Offers (marked "StringAsNumeric") .numeralOf := by
  refine ⟨?_, ?_, ?_, ?_⟩
  · intro s
    obtain ⟨p, written, maximal⟩ := IntegerParts.exists_maximal s.toList
    refine ⟨⟨p, ⟨written, maximal⟩,
      fun q other => other.2.unique maximal (other.1.trans written.symm)⟩, ?_⟩
    intro p written maximal
    have read := IntegerParts.integer?_of_parts maximal written
    by_cases none : p.digits = []
    · simp [read, none]
    · simp only [read, none, if_false, false_or, ne_eq, not_false_eq_true, true_and]
      exact ⟨Integer.ofInt?_eq_none_iff, fun i => Integer.ofInt?_eq_some_iff⟩
  · intro i bounds
    exact ⟨i.text, rfl, numeral_text i,
      fun before after blank ended => Data.asInteger_text i blank ended⟩
  · intro s v i bounds toText toInteger toNumber n held ready offersText offersInteger offersNumber
    obtain ⟨w, t, called, still, made⟩ : s.Answers (n + 1) toText v (.ok (.string i.text)) := by
      have converted := call_converts (n := n) offersText ready (v := v) (by simp [held])
      rwa [held] at converted
    refine ⟨w, t, called, still, made, ?_, ?_⟩
    · have converted := call_converts (n := n) (still.offers offersInteger) (still.ready ready)
        (v := w) (by simp [made])
      have whole : (.leaf (.string i.text) : Data Handle).asInteger = .ok i := by
        simp only [Data.asInteger, readInteger, integer?_whole]
      rwa [made, Data.convert, whole] at converted
    · have spelt : (t.heap.data w).asString = .ok i.text := by rw [made]; rfl
      have answered := call_numeralOf (n := n) (still.offers offersNumber) (still.ready ready) spelt
      rwa [numeral_text] at answered
  · intro s settings run
    exact ⟨kept_offers_marked run (convert_mem (by simp)) rfl,
      kept_offers_marked run (convert_mem (by simp)) rfl, kept_offers_marked run numeralOf_mem rfl⟩

/-- The least integer, also in the midst of other text, and a sign without digits. -/
theorem integer_text_read_least :
    numeral "-9223372036854775808" = .ok (.integer (-9223372036854775808) none) ∧
    (.leaf (.string ("\u3000 " ++ "-9223372036854775808" ++ ".5e1")) : Data Handle).asInteger =
      .ok (-9223372036854775808) ∧
    integer? " +x" = none := by
  obtain ⟨read, written, -⟩ := integer_text_read
  obtain ⟨text, spelt, spells, within⟩ := written (-9223372036854775808) none
  obtain rfl : text = "-9223372036854775808" := (Except.ok.inj spelt).symm
  have blank : ∀ c ∈ "\u3000 ".toList, Text.isBlank c = true := List.all_eq_true.mp (by decide)
  have maximal : IntegerParts.Maximal ⟨[' '], .plus, [], ['x']⟩ :=
    ⟨List.all_eq_true.mp (by decide), breaks_cons.mpr (by decide), nofun, by simp,
      breaks_cons.mpr (by decide)⟩
  refine ⟨spells, within _ _ blank (breaks_cons.mpr (by decide)), ?_⟩
  exact ((read " +x").2 _ rfl maximal).1.mpr (.inl rfl)

end Host

end ScriptHost
