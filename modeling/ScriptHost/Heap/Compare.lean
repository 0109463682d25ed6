import ScriptHost.Heap.Basic

/-!
# Comparison and equality

Scalars are ordered: numbers by value, Booleans as zero and one, texts by their characters, and a
text against a number as texts. Reals that are equal up to rounding error are equal, and a NaN is in
no order.

Two equalities go through all parts of a value: `Heap.exactlyEqual` takes reals as they are,
`Heap.alike` up to rounding error. Both compare arrays place by place, structures member by member
in order, dictionaries by key in any order, and a value is always equal to itself.
-/

set_option autoImplicit false

namespace ScriptHost

/-- The order of two numbers that are not equal up to rounding error; a NaN has none. -/
def realOrder (a b : Float) : Except Fault Ordering :=
  if Tolerance.equal a b then .ok .eq
  else if a < b then .ok .lt
  else if b < a then .ok .gt
  else .error .notOrdered

/-- The order of two texts by their code points. -/
def textOrder (a b : String) : Ordering := if a < b then .lt else if a = b then .eq else .gt

/-- The order of two integers. -/
def integerOrder (a b : Integer) : Ordering := if a < b then .lt else if a = b then .eq else .gt

/-- The order of two scalars. -/
def Data.compare {ρ σ : Type} (a : Data ρ) (b : Data σ) : Except Fault Ordering :=
  if !a.kind.isScalar || !b.kind.isScalar then .error
    (.notComparable (if a.kind.isScalar then b.kind else a.kind))
  else if a.kind = .string ∨ b.kind = .string then do return textOrder (← a.asString) (← b.asString)
  else if a.kind = .real ∨ b.kind = .real then
    do realOrder (← a.asReal).toFloat (← b.asReal).toFloat
  else do return integerOrder (← a.asInteger) (← b.asInteger)

/-- Whether two leaves are equal, with reals compared as given. -/
def Leaf.equal (reals : Float → Float → Bool) : Leaf → Leaf → Bool
  | .null, .null => true
  | .type a, .type b => a.text == b.text
  | .boolean a, .boolean b => a == b
  | .integer a _, .integer b _ => a == b
  | .real a _, .real b _ => reals a.toFloat b.toFloat
  | .string a, .string b => a == b
  | .executable a, .executable b => a.same b
  | _, _ => false

namespace Heap

/-- Whether two values are equal down to so many levels, with reals compared as given. -/
def equalTo (h : Heap) (reals : Float → Float → Bool) : Nat → Handle → Handle → Bool
  | 0, a, b => a == b
  | n + 1, a, b =>
    a == b ||
    match h.data a, h.data b with
    | .leaf l, .leaf m => l.equal reals m
    | .array s, .array t =>
      s.start == t.start && s.length == t.length && (s.items.zip t.items).all fun (x, y) =>
        equalTo h reals n x y
    | .dictionary d, .dictionary e =>
      d.length == e.length && d.entries.all fun (k, x) =>
        match e.get? k with
        | some y => equalTo h reals n x y
        | none => false
    | .record r, .record s =>
      r.length == s.length &&
        (r.members.zip s.members).all fun ((m, x), (k, y)) => m == k && equalTo h reals n x y
    | _, _ => false

/-- Whether two values are equal, reals as they are. -/
def exactlyEqual (h : Heap) (a b : Handle) : Bool := h.equalTo (· == ·) h.levels a b

/-- Whether two values are equal, reals up to rounding error. -/
def alike (h : Heap) (a b : Handle) : Bool := h.equalTo Tolerance.equal h.levels a b

/-- The order of two values. -/
def compare (h : Heap) (a b : Handle) : Except Fault Ordering := (h.data a).compare (h.data b)

/-- Whether two scalars are equal; Null is equal to Null alone. -/
def equals (h : Heap) (a b : Handle) : Except Fault Bool :=
  if h.kind a = .null ∨ h.kind b = .null then .ok (h.kind a = .null ∧ h.kind b = .null)
  else (h.compare a b).map (· == .eq)

/-- Whether one scalar comes before another. -/
def lessThan (h : Heap) (a b : Handle) : Except Fault Bool := (h.compare a b).map (· == .lt)

end Heap

end ScriptHost
