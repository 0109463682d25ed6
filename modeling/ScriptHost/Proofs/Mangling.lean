import Mathlib.Logic.Function.Basic
import ScriptHost.Proofs.Number.Digits
import ScriptHost.Scope.Environment

/-!
# Mangled keys

A mangled key reads backwards without doubt: the digits of the arity hold no underscore, so the last
underscore of the key is the one that joins it, whatever the name holds. Hence different overloads
have different keys (`mangle_injective`), the key of an overload is taken apart into what it was
made of (`demangle?_mangle`), and the two ways to look an overload up, by its key and by its name
and arity, answer alike where the key is not bound as a plain name of its own
(`Scope.lookup_mangle`). An empty name is left out: its keys, an underscore and an arity, are not
taken apart.
-/

set_option autoImplicit false

namespace ScriptHost

/-! ## The arity of a key -/

namespace Numeral

theorem underscore_not_mem_toDigits (n : Nat) : '_' ∉ Nat.toDigits 10 n := by
  intro mem
  have digit := isDigit_of_mem_toDigits mem
  revert digit
  decide

end Numeral

/-! ## Taking a key apart -/

theorem toList_mangle (name : String) (arity : Nat) :
    (mangle name arity).toList = name.toList ++ '_' :: Nat.toDigits 10 arity := by
  simp [mangle, Nat.toList_repr]

/-- From its end, a key has the digits of the arity up to the underscore that joins them to the
name. -/
theorem split_mangle (name : String) (arity : Nat) :
    (mangle name arity).toList.reverse.takeWhile (· != '_') = (Nat.toDigits 10 arity).reverse ∧
      (mangle name arity).toList.reverse.dropWhile (· != '_') = '_' :: name.toList.reverse := by
  have digits : ∀ c ∈ (Nat.toDigits 10 arity).reverse, (c != '_') = true := by
    intro c mem
    rw [bne_iff_ne]
    rintro rfl
    exact Numeral.underscore_not_mem_toDigits arity (List.mem_reverse.mp mem)
  have backwards : (mangle name arity).toList.reverse = (Nat.toDigits 10 arity).reverse ++
      '_' :: name.toList.reverse := by
    simp [toList_mangle]
  rw [backwards]
  -- no digit is an underscore, so both stop at the one after the digits
  constructor
  · rw [List.takeWhile_append_of_pos digits, List.takeWhile_cons_of_neg (by simp), List.append_nil]
  · rw [List.dropWhile_append_of_pos digits, List.dropWhile_cons_of_neg (by simp)]

/-- Different overloads have different keys. -/
theorem mangle_injective : Function.Injective2 mangle := by
  intro name other arity arity' same
  obtain ⟨digits, letters⟩ := split_mangle name arity
  obtain ⟨digits', letters'⟩ := split_mangle other arity'
  rw [same] at digits letters
  constructor
  · have backwards : name.toList.reverse = other.toList.reverse :=
      (List.cons.inj (letters.symm.trans letters')).2
    exact String.toList_inj.mp (List.reverse_inj.mp backwards)
  · have written : Nat.toDigits 10 arity = Nat.toDigits 10 arity' :=
      List.reverse_inj.mp (digits.symm.trans digits')
    rw [← Numeral.value_toDigits arity, written, Numeral.value_toDigits]

/-- A key is taken apart into the name and the arity that it was made of, also where the name looks
like a key. -/
theorem demangle?_mangle {name : String} (filled : name ≠ "") (arity : UInt64) :
    demangle? (mangle name arity.toNat) = some (name, arity.toNat) := by
  obtain ⟨digits, letters⟩ := split_mangle name arity.toNat
  have all : ∀ c ∈ Nat.toDigits 10 arity.toNat, Numeral.isDigit c = true :=
    fun _ mem => Numeral.isDigit_of_mem_toDigits mem
  have fits : arity.toNat < 18446744073709551616 := arity.toNat_lt
  simpa [demangle?, digits, letters, filled, fits, Nat.toDigits_ne_nil, Numeral.value_toDigits]
    using all

/-- Mangling leaves the marker of a name in front. -/
theorem unmark_mangle (name : String) (arity : Nat) :
    unmark (mangle name arity) = ((unmark name).1, mangle (unmark name).2 arity) := by
  cases letters : name.toList with
  | nil =>
    have key : (mangle name arity).toList = '_' :: Nat.toDigits 10 arity := by
      rw [toList_mangle, letters, List.nil_append]
    have other : '_' ≠ baseMarker := by decide
    simp [unmark, letters, key, other]
  | cons c cs =>
    have key : (mangle name arity).toList = c :: (cs ++ '_' :: Nat.toDigits 10 arity) := by
      rw [toList_mangle, letters, List.cons_append]
    by_cases marker : c = baseMarker
    · have rest : String.ofList (cs ++ '_' :: Nat.toDigits 10 arity) =
          mangle (String.ofList cs) arity := by
        rw [← String.toList_inj, toList_mangle, String.toList_ofList, String.toList_ofList]
      simp [unmark, letters, key, marker, rest]
    · simp [unmark, letters, key, marker]

/-! ## Lookup -/

namespace Scope

variable {s : Scope} {name : String}

/-- A mangled key is looked up in the tables of its name. -/
theorem searchOrder_mangle (s : Scope) (name : String) (arity : Nat) :
    s.searchOrder (mangle name arity) = ((s.searchOrder name).1, mangle (unmark name).2 arity) ∧
      (s.searchOrder name).2 = (unmark name).2 := by
  unfold searchOrder
  rw [unmark_mangle]
  rcases unmark name with ⟨marked, bare⟩
  cases marked with
  | true => exact ⟨rfl, rfl⟩
  | false => exact ⟨rfl, rfl⟩

/-- A key that is bound nowhere as a plain name stands for its overload. -/
theorem find?_mangle {arity : UInt64} (filled : (unmark name).2 ≠ "")
    (free : ∀ t ∈ (s.searchOrder name).1,
      t.get? (.plain (mangle (unmark name).2 arity.toNat)) = none) :
    s.find? (mangle name arity.toNat) = s.findOverload? name arity.toNat := by
  obtain ⟨order, bare⟩ := searchOrder_mangle s name arity.toNat
  have none : (s.searchOrder name).1.findSome?
      (·.get? (.plain (mangle (unmark name).2 arity.toNat))) = none :=
    List.findSome?_eq_none_iff.mpr free
  simp only [find?, findOverload?, order, bare, none, demangle?_mangle filled]

/-- **An overload is found by its key as by its name and arity**: in any environment, for a name
that is not empty without its marker and an arity for which no table that is searched binds the key
as a plain name, both ways give one answer, the same value or the same fault, and whether the key
exists says which. Keys are told apart by name and arity, and give them back. -/
theorem lookup_mangle (s : Scope) (name : String) (arity : UInt64) (filled : (unmark name).2 ≠ "")
    (free : ∀ t ∈ (s.searchOrder (mangle name arity.toNat)).1,
      t.get? (.plain (s.searchOrder (mangle name arity.toNat)).2) = none) :
    s.lookup (mangle name arity.toNat) = s.lookupOverload name arity.toNat ∧
      (((s.find? (mangle name arity.toNat)).isSome = true ∧
        ∃ v, s.lookupOverload name arity.toNat = .ok v) ∨
        ((s.find? (mangle name arity.toNat)).isSome = false ∧
          s.lookupOverload name arity.toNat = .error (.noSuchSymbol (mangle name arity.toNat)))) ∧
      Function.Injective2 mangle ∧
      ∀ (n : String) (a : UInt64), n ≠ "" → demangle? (mangle n a.toNat) = some (n, a.toNat) := by
  rw [(searchOrder_mangle s name arity.toNat).1] at free
  have same := find?_mangle filled free
  refine ⟨?_, ?_, mangle_injective, fun n a some => demangle?_mangle some a⟩
  · rw [lookup, lookupOverload, same]
  · rw [lookupOverload, same]
    cases s.findOverload? name arity.toNat with
    | none => exact .inr ⟨rfl, rfl⟩
    | some v => exact .inl ⟨rfl, v, rfl⟩

/-- An overload in the base table, under a frame that binds the key of the overload. -/
def keyBound : Scope := ⟨⟨[(.overload "a_1" 2, ⟨7⟩)]⟩, ⟨[⟨[(.plain "a_1_2", ⟨8⟩)]⟩], 0, 1⟩⟩

/-- The name holds an underscore and a digit, and its marker keeps the frame from being searched. -/
theorem lookup_mangle_marked :
    (∀ t ∈ (keyBound.searchOrder "\x60a_1_2").1, t.get? (.plain "a_1_2") = none) ∧
      keyBound.lookup "\x60a_1_2" = keyBound.lookupOverload "\x60a_1" 2 ∧
      keyBound.lookupOverload "\x60a_1" 2 = .ok ⟨7⟩ ∧ keyBound.lookup "a_1_2" = .ok ⟨8⟩ := by
  have agree := lookup_mangle keyBound "\x60a_1" 2 (by decide) (by decide)
  exact ⟨by decide, agree.1, rfl, rfl⟩

end Scope

end ScriptHost
