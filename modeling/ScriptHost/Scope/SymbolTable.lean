import ScriptHost.Heap.Copy
import ScriptHost.Scope.Symbol

/-!
# Symbol tables

A symbol table binds symbols to values, each symbol once: a binding stays until the table is
cleared, and binding a symbol again is refused. An executable is bound under one overload symbol for
each of its arities, or under none of them when one is taken; everything else is bound under its
plain name.

`SymbolTable.get?` is the view of a table: what stands under a symbol.
-/

set_option autoImplicit false

namespace ScriptHost

/-- Values under symbols. -/
structure SymbolTable where
  bindings : List (Symbol × Handle)

/-- A step over a symbol table. -/
abbrev TableM := EStateM Fault SymbolTable

namespace SymbolTable

/-- The table without bindings. -/
def empty : SymbolTable := ⟨[]⟩

/-- The first value under a symbol. -/
def find (s : Symbol) : List (Symbol × Handle) → Option Handle
  | [] => none
  | (t, v) :: bs => if t = s then some v else find s bs

/-- The value under a symbol. -/
def get? (t : SymbolTable) (s : Symbol) : Option Handle := find s t.bindings

/-- The number of bindings. -/
def length (t : SymbolTable) : Nat := t.bindings.length

/-- The keys of all bindings, sorted. -/
def keys (t : SymbolTable) : List String := (t.bindings.map (·.1.key)).mergeSort (· ≤ ·)

/-- The symbols that a value is bound under: one for each arity of an executable, or the plain
name. -/
def symbolsOf (name : String) : Data Handle → List Symbol
  | .leaf (.executable e) => e.arities.map (.overload name)
  | _ => [.plain name]

/-! ## Binding -/

/-- Binds a symbol that is free. -/
def bind (s : Symbol) (v : Handle) : TableM Unit := fun t =>
  match t.get? s with
  | some _ => .error (.symbolTaken s.key) t
  | none => .ok () ⟨(s, v) :: t.bindings⟩

/-- A symbol that was free stands for the value it was bound to. -/
theorem get?_bind_self {s : Symbol} {v : Handle} {t u : SymbolTable}
    (bound : bind s v t = .ok () u) : u.get? s = some v := by
  unfold bind at bound
  split at bound
  · cases bound
  · cases bound; simp [get?, find]

/-- Binding a symbol leaves every other one alone. -/
theorem get?_bind_ne {s r : Symbol} {v : Handle} {t u : SymbolTable} (bound : bind s v t = .ok () u)
    (other : r ≠ s) : u.get? r = t.get? r := by
  unfold bind at bound
  split at bound
  · cases bound
  · cases bound; simp [get?, find, Ne.symm other]

/-- Refuses a list of symbols that holds a taken one. -/
def checkFree (symbols : List Symbol) : TableM Unit := fun t =>
  match symbols.find? fun s => (t.get? s).isSome with
  | some s => .error (.symbolTaken s.key) t
  | none => .ok () t

/-- Binds a value under several symbols, or under none when one of them is taken. -/
def bindAll (symbols : List Symbol) (v : Handle) : TableM Unit := do
  checkFree symbols
  symbols.forM (bind · v)

/-- Binds every pair of a list in order. -/
def load (bindings : List (Symbol × Handle)) : TableM Unit := bindings.forM fun (s, v) => bind s v

/-! ## Clones -/

/-- The bindings in order: those of one name together, the plain one first and then the overloads by
arity. -/
def ordered (t : SymbolTable) : List (Symbol × Handle) :=
  t.bindings.mergeSort fun a b => a.1.notAfter b.1

/-- The bindings of a table in order, with their values shared, or with clones that keep the
locks. -/
def cloned (kind : CloneKind) (t : SymbolTable) : HeapM (List (Symbol × Handle)) :=
  match kind with
  | .deep => t.ordered.mapM fun (s, v) => do return (s, ← HeapM.cloneWith .deep v)
  | .minimal | .shallow => return t.ordered

/-- A new table with the same symbols. -/
def duplicate (kind : CloneKind) (t : SymbolTable) : HeapM SymbolTable := do
  return ⟨← t.cloned kind⟩

end SymbolTable

end ScriptHost
