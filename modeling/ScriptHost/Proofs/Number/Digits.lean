import Mathlib.Data.List.Induction
import Mathlib.Data.Nat.Digits.Defs
import Mathlib.Tactic.Ring
import ScriptHost.Number.Numeral

/-!
# Runs of digits, signs and decimal values

The parts of a number in a text follow one another: blanks, a sign, digits. Each is taken as far as
it goes, so a part is what has been taken for it exactly if all of its characters are of its kind
and the text does not go on with another one (`Breaks`). That is the content of
`takeWhile_append_of_breaks` and `sign_append`, the two facts by which a text of known parts is
read.

A run of digits writes the sum of its digits, each at the power of ten of its place
(`value_eq_ofDigits`).
-/

set_option autoImplicit false

namespace ScriptHost.Numeral

/-! ## Where a run ends -/

/-- The text does not begin with a character of the kind. -/
def Breaks (p : Char → Bool) (cs : List Char) : Prop := ∀ c ∈ cs.head?, p c = false

variable {p : Char → Bool} {c : Char} {cs ds rest : List Char}

@[simp] theorem breaks_nil : Breaks p [] := by simp [Breaks]

@[simp] theorem breaks_cons : Breaks p (c :: cs) ↔ p c = false := by simp [Breaks]

/-- A run ends where something stands that does not belong to it. -/
theorem breaks_of_nonempty (nonempty : ds ≠ []) (none : ∀ c ∈ ds, p c = false) :
    Breaks p (ds ++ rest) := by
  obtain ⟨c, ds, rfl⟩ := List.exists_cons_of_ne_nil nonempty
  exact breaks_cons.mpr (none c List.mem_cons_self)

/-- What is left after a run begins with something else. -/
theorem breaks_dropWhile (p : Char → Bool) (cs : List Char) : Breaks p (cs.dropWhile p) := by
  intro c first
  have last := List.head?_dropWhile_not p cs
  rw [Option.mem_def.mp first] at last
  exact last

/-- A run is taken as a whole if it breaks off behind it. -/
theorem takeWhile_append_of_breaks (all : ∀ c ∈ ds, p c = true) (breaks : Breaks p rest) :
    (ds ++ rest).takeWhile p = ds := by
  rw [List.takeWhile_append_of_pos all]
  cases rest with
  | nil => simp
  | cons c rest => simp [breaks_cons.mp breaks]

theorem dropWhile_append_of_breaks (all : ∀ c ∈ ds, p c = true) (breaks : Breaks p rest) :
    (ds ++ rest).dropWhile p = rest := by
  rw [List.dropWhile_append_of_pos all]
  cases rest with
  | nil => rfl
  | cons c rest => simp [breaks_cons.mp breaks]

/-! ## Signs -/

/-- The spellings of a sign. -/
inductive SignMark where
  | absent
  | plus
  | minus
deriving DecidableEq, Repr

/-- The characters of a sign. -/
def SignMark.chars : SignMark → List Char
  | .absent => []
  | .plus => ['+']
  | .minus => ['-']

/-- Whether the sign is a minus. -/
def SignMark.negative : SignMark → Bool
  | .minus => true
  | _ => false

/-- The characters of which a sign can be. -/
def isSign (c : Char) : Bool := c == '+' || c == '-'

/-- A sign is read, and none where none is written. -/
theorem sign_append (m : SignMark) (unsigned : m = .absent → Breaks isSign cs) :
    sign (m.chars ++ cs) = (m.negative, cs) := by
  cases m with
  | plus | minus => rfl
  | absent =>
    have breaks := unsigned rfl
    show sign cs = (false, cs)
    unfold sign
    split
    · simp [isSign] at breaks
    · simp [isSign] at breaks
    · rfl

/-- Every text begins with a sign, or with none. -/
theorem exists_signMark (cs : List Char) :
    ∃ m rest, cs = SignMark.chars m ++ rest ∧ (m = .absent → Breaks isSign rest) := by
  by_cases first : cs.head? = some '-'
  · obtain ⟨rest, rfl⟩ := List.head?_eq_some_iff.mp first
    exact ⟨.minus, rest, rfl, nofun⟩
  · by_cases second : cs.head? = some '+'
    · obtain ⟨rest, rfl⟩ := List.head?_eq_some_iff.mp second
      exact ⟨.plus, rest, rfl, nofun⟩
    · refine ⟨.absent, cs, rfl, ?_⟩
      intro _ c mem
      rw [Option.mem_def.mp mem, Option.some.injEq] at first second
      simp [isSign, first, second]

theorem SignMark.chars_inj {m n : SignMark} (same : m.chars = n.chars) : m = n := by
  cases m <;> cases n <;> simp_all [SignMark.chars]

/-- A sign and what follows it are told apart in one way only. -/
theorem signMark_inj {m n : SignMark} {cs ds : List Char} (same : m.chars ++ cs = n.chars ++ ds)
    (left : m = .absent → Breaks isSign cs) (right : n = .absent → Breaks isSign ds) :
    m = n ∧ cs = ds := by
  have read : (m.negative, cs) = (n.negative, ds) := by
    rw [← sign_append m left, ← sign_append n right, same]
  obtain ⟨-, rfl⟩ := Prod.mk.inj read
  exact ⟨SignMark.chars_inj (List.append_cancel_right same), rfl⟩

/-! ## Digits -/

/-- The digits are ten characters in a row. -/
theorem isDigit_iff : isDigit c = true ↔ 48 ≤ c.toNat ∧ c.toNat ≤ 57 := by
  simp only [isDigit, Bool.and_eq_true, decide_eq_true_eq]
  rfl

/-- A digit is neither a sign nor a blank. -/
theorem isSign_of_isDigit (digit : isDigit c = true) : isSign c = false := by
  rw [isDigit_iff] at digit
  rw [Bool.eq_false_iff, Ne, isSign, Bool.or_eq_true, beq_iff_eq, beq_iff_eq]
  rintro (rfl | rfl) <;> exact absurd digit (by decide)

theorem isBlank_of_isDigit (digit : isDigit c = true) : Text.isBlank c = false := by
  rw [isDigit_iff] at digit
  rw [Text.isBlank, List.any_eq_false]
  intro range mem
  simp only [Text.blankRanges, List.mem_cons, List.not_mem_nil, or_false] at mem
  rw [Bool.and_eq_true, decide_eq_true_eq, decide_eq_true_eq]
  rcases mem with rfl | rfl | rfl | rfl | rfl | rfl | rfl | rfl | rfl | rfl <;> omega

/-- The number that a digit stands for. -/
def digitValue (c : Char) : Nat := c.toNat - 48

/-- One more digit counts once, and all before it tenfold. -/
theorem value_concat (ds : List Char) (c : Char) :
    value (ds ++ [c]) = 10 * value ds + digitValue c := by
  simp only [value, List.foldl_append, List.foldl_cons, List.foldl_nil, digitValue]
  rfl

/-- **The value of a run of digits** is the sum of its digits, each at its power of ten. -/
theorem value_eq_ofDigits (ds : List Char) :
    value ds = Nat.ofDigits 10 (ds.reverse.map digitValue) := by
  induction ds using List.reverseRecOn with
  | nil => rfl
  | append_singleton ds c ih =>
    rw [value_concat, ih, List.reverse_append, List.reverse_singleton, List.singleton_append,
      List.map_cons, Nat.ofDigits_cons, Nat.add_comm]

/-- More digits shift those before them by as many places. -/
theorem value_append (ds es : List Char) :
    value (ds ++ es) = value ds * 10 ^ es.length + value es := by
  rw [value_eq_ofDigits, List.reverse_append, List.map_append, Nat.ofDigits_append,
    ← value_eq_ofDigits, ← value_eq_ofDigits, List.length_map, List.length_reverse]
  ring

/-- The digits of a number write it. -/
theorem value_toDigits (n : Nat) : value (Nat.toDigits 10 n) = n :=
  Nat.ofDigitChars_toDigits (by omega) (by omega)

theorem isDigit_of_mem_toDigits {n : Nat} (mem : c ∈ Nat.toDigits 10 n) : isDigit c = true :=
  Nat.isDigit_of_mem_toDigits (by omega) (by omega) mem

end ScriptHost.Numeral
