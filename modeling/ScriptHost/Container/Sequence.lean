import ScriptHost.TypeDesc

/-!
# Sequences

The contents of an array: elements under consecutive indices from `start` on, a policy for indices
outside, and the type of the elements if one was declared. A declared sequence begins with default
elements in its slots; `filled` counts how many slots `push` has taken, and once all are taken
`push` appends.

`Sequence.resolve` answers a position within the elements or a fault, so reading an element cannot
go astray. The last index of a sequence never passes the greatest integer: every operation that
makes it longer asks `hasRoom`.
-/

set_option autoImplicit false

namespace ScriptHost

/-- Elements under consecutive indices. -/
structure Sequence (ρ : Type) where
  start : Integer
  items : List ρ
  filled : Nat
  element : Option TypeDesc
  policy : RangePolicy

namespace Sequence

variable {ρ σ : Type}

/-- The sequence of given elements, every slot taken. -/
def ofItems (start : Integer) (items : List ρ) (policy : RangePolicy) : Sequence ρ :=
  ⟨start, items, items.length, none, policy⟩

/-- A declared sequence: default elements in slots that wait to be taken. -/
def declared (start : Integer) (slots : List ρ) (element : TypeDesc) (policy : RangePolicy) :
    Sequence ρ :=
  ⟨start, slots, 0, some element, policy⟩

/-- The number of elements. -/
def length (s : Sequence ρ) : Nat := s.items.length

/-- The last index, one below `start` when there is none, within the integers. -/
def finish (s : Sequence ρ) : Integer := Integer.saturate (s.start.toInt + s.length - 1)

/-- How far an index lies from the first one. -/
def offset (s : Sequence ρ) (index : Integer) : Int := index.toInt - s.start.toInt

/-- The fault of an index that has no element. -/
def outOfRange (s : Sequence ρ) (index : Integer) : Fault := .indexOutOfRange index s.start s.finish

theorem toNat_offset_lt {s : Sequence ρ} {index : Integer}
    (inside : 0 ≤ s.offset index ∧ s.offset index < s.length) :
    (s.offset index).toNat < s.length := by omega

theorem length_pos {s : Sequence ρ} (full : s.length ≠ 0) : 0 < s.length := Nat.pos_of_ne_zero full

theorem last_lt {s : Sequence ρ} (full : s.length ≠ 0) : s.length - 1 < s.length := by omega

theorem wrapped_lt {s : Sequence ρ} (full : s.length ≠ 0) (i : Int) :
    (i % s.length).toNat < s.length := by
  have upper := Int.emod_lt_of_pos i (show (0 : Int) < s.length by omega)
  have lower := Int.emod_nonneg i (show (s.length : Int) ≠ 0 by omega)
  omega

/-- The position of the element under an index, with the policy applied to an index outside. No
policy finds an element in an empty sequence. -/
def resolve (s : Sequence ρ) (index : Integer) : Except Fault (Fin s.length) :=
  if full : s.length = 0 then .error (s.outOfRange index)
  else if inside : 0 ≤ s.offset index ∧ s.offset index < s.length then
    .ok ⟨(s.offset index).toNat, toNat_offset_lt inside⟩
  else
    match s.policy with
    | .refuse => .error (s.outOfRange index)
    | .cap =>
      .ok (if s.offset index < 0 then ⟨0, length_pos full⟩ else ⟨s.length - 1, last_lt full⟩)
    | .rollover => .ok ⟨(s.offset index % s.length).toNat, wrapped_lt full (s.offset index)⟩

/-- The element under an index. -/
def get (s : Sequence ρ) (index : Integer) : Except Fault ρ := (s.resolve index).map (s.items.get ·)

/-- The position of the element under an index; the policy does not apply. -/
def position (s : Sequence ρ) (index : Integer) : Except Fault (Fin s.length) :=
  if inside : 0 ≤ s.offset index ∧ s.offset index < s.length then
    .ok ⟨(s.offset index).toNat, toNat_offset_lt inside⟩
  else .error (s.outOfRange index)

/-- Whether a sequence of that length would end within the integers. -/
def hasRoom (s : Sequence ρ) (length : Nat) : Bool := s.start.toInt + length - 1 ≤ Integer.greatest

/-- Takes the next slot, or appends when there is none. -/
def push (s : Sequence ρ) (v : ρ) : Except Fault (Sequence ρ) :=
  if s.filled < s.length then .ok { s with items := s.items.set s.filled v, filled := s.filled + 1 }
  else if s.hasRoom (s.length + 1) then
    .ok { s with items := s.items ++ [v], filled := s.filled + 1 }
  else .error (.arrayTooLong s.start (s.length + 1))

/-- Puts an element before the one under an index; the index after the last appends. -/
def insert (s : Sequence ρ) (index : Integer) (v : ρ) : Except Fault (Sequence ρ) :=
  if s.offset index < 0 ∨ s.length < s.offset index then
    .error (.indexOutOfRange index s.start (Integer.saturate (s.finish.toInt + 1)))
  else if s.hasRoom (s.length + 1) then
    .ok { s with items := s.items.insertIdx (s.offset index).toNat v, filled := s.filled + 1 }
  else .error (.arrayTooLong s.start (s.length + 1))

/-- Exchanges the elements under two indices. -/
def swap (s : Sequence ρ) (a b : Integer) : Except Fault (Sequence ρ) := do
  let i ← s.position a
  let j ← s.position b
  return { s with items := (s.items.set i (s.items.get j)).set j (s.items.get i) }

/-- Puts other elements in place of all, every slot taken. -/
def replace (s : Sequence ρ) (items : List ρ) : Except Fault (Sequence ρ) :=
  if s.hasRoom items.length then .ok { s with items := items, filled := items.length }
  else .error (.arrayTooLong s.start items.length)

/-- The same sequence with its elements replaced one by one. -/
def map (f : ρ → σ) (s : Sequence ρ) : Sequence σ :=
  ⟨s.start, s.items.map f, s.filled, s.element, s.policy⟩

/-- The same sequence with its elements replaced one by one, from the first on. -/
def mapM {m : Type → Type} [Monad m] (f : ρ → m σ) (s : Sequence ρ) : m (Sequence σ) := do
  return ⟨s.start, ← s.items.mapM f, s.filled, s.element, s.policy⟩

end Sequence

end ScriptHost
