/-!
# Named things

A list of pairs as a map from names: the first pair of a name counts, a name that is present keeps
its place.
-/

set_option autoImplicit false

namespace ScriptHost.Named

variable {α : Type}

/-- What stands under a name. -/
def find (name : String) : List (String × α) → Option α
  | [] => none
  | (n, a) :: rest => if n = name then some a else find name rest

/-- The list with something put under a name: in its place, or at the end. -/
def put (name : String) (a : α) : List (String × α) → List (String × α)
  | [] => [(name, a)]
  | (n, b) :: rest => if n = name then (n, a) :: rest else (n, b) :: put name a rest

/-- The list without what stands under a name. -/
def drop (name : String) : List (String × α) → List (String × α)
  | [] => []
  | (n, a) :: rest => if n = name then rest else (n, a) :: drop name rest

/-- What is put under a name is found under it. -/
@[simp] theorem find_put_self (name : String) (a : α) (l : List (String × α)) :
    find name (put name a l) = some a := by
  induction l with
  | nil => simp [put, find]
  | cons p rest ih =>
    obtain ⟨n, b⟩ := p
    by_cases h : n = name <;> simp [put, find, h, ih]

/-- What is under another name stays. -/
theorem find_put_ne {name other : String} (h : other ≠ name) (a : α) (l : List (String × α)) :
    find other (put name a l) = find other l := by
  induction l with
  | nil => simp [put, find, h.symm]
  | cons p rest ih =>
    obtain ⟨n, b⟩ := p
    by_cases hn : n = name
    · subst hn; simp [put, find, h.symm]
    · by_cases ho : n = other
      · subst ho; simp [put, find, hn]
      · simp [put, find, hn, ho, ih]

/-- What is found is in the list. -/
theorem mem_of_find {name : String} {a : α} {l : List (String × α)} (found : find name l = some a) :
    (name, a) ∈ l := by
  induction l with
  | nil => cases found
  | cons p l ih =>
    obtain ⟨n, b⟩ := p
    by_cases here : n = name
    · simp only [find, here, if_true, Option.some.injEq] at found
      simp [here, found]
    · simp only [find, here, if_false] at found
      simp [ih found]

/-- Nothing is in the list but what was there and what was put. -/
theorem mem_put {name : String} {a : α} {l : List (String × α)} {p : String × α}
    (mem : p ∈ put name a l) : p = (name, a) ∨ p ∈ l := by
  induction l with
  | nil => simpa [put] using mem
  | cons q l ih =>
    obtain ⟨n, b⟩ := q
    by_cases here : n = name
    · simp only [put, here, if_true, List.mem_cons] at mem
      exact mem.imp id fun old => by simp [old]
    · simp only [put, here, if_false, List.mem_cons] at mem
      obtain rfl | mem := mem
      · simp
      · exact (ih mem).imp id fun old => by simp [old]

/-- What has a new name stands last. -/
theorem put_of_new {name : String} {l : List (String × α)} (fresh : name ∉ l.map (·.1)) (a : α) :
    put name a l = l ++ [(name, a)] := by
  induction l with
  | nil => rfl
  | cons p l ih =>
    obtain ⟨n, b⟩ := p
    simp only [List.map_cons, List.mem_cons, not_or] at fresh
    obtain ⟨other, later⟩ := fresh
    simp only [put, Ne.symm other, if_false, ih later, List.cons_append]

/-- A name that is there keeps its place; a new one stands last. -/
theorem names_put (name : String) (a : α) (l : List (String × α)) :
    (put name a l).map (·.1) = if name ∈ l.map (·.1) then l.map (·.1)
      else l.map (·.1) ++ [name] := by
  induction l with
  | nil => rfl
  | cons p l ih =>
    obtain ⟨n, b⟩ := p
    by_cases here : n = name
    · simp [put, here]
    · have other : name ≠ n := fun same => here same.symm
      simp only [put, here, if_false, List.map_cons, ih, List.mem_cons, other, false_or]
      split <;> rfl

theorem mem_drop {name : String} {l : List (String × α)} {p : String × α} (mem : p ∈ drop name l) :
    p ∈ l := by
  induction l with
  | nil => cases mem
  | cons q l ih =>
    obtain ⟨n, b⟩ := q
    by_cases here : n = name
    · simp only [drop, here, if_true] at mem
      simp [mem]
    · simp only [drop, here, if_false, List.mem_cons] at mem
      obtain rfl | mem := mem
      · simp
      · simp [ih mem]

end ScriptHost.Named
