import ScriptHost.Host.Call

/-!
# Sorting and searching

Arrays are sorted and searched by a predicate of the program, which may do anything: fail, change
its mind, or change the array itself. The elements to sort are taken down once; only a completed
sort is stored.

`mergeSort` splits in halves and merges, taking the element on the right only when it comes before
the one on the left, so that equivalent elements keep their order. `findSorted` halves an interval
of indices, and reads the array anew for each comparison.
-/

set_option autoImplicit false

namespace ScriptHost

/-- A test of two values by the program. -/
abbrev Before := Handle → Handle → HostM Bool

/-- Merges a list that starts with `a` into others, given how the rest of it merges. -/
def mergeInto (before : Before) (a : Handle) (as : List Handle)
    (rest : List Handle → HostM (List Handle)) : List Handle → HostM (List Handle)
  | [] => return a :: as
  | b :: bs => do
    if ← before b a then return b :: (← mergeInto before a as rest bs)
      else return a :: (← rest (b :: bs))

/-- Merges two lists; the left one goes first unless the right one comes before it. -/
def merge (before : Before) : List Handle → List Handle → HostM (List Handle)
  | [], bs => return bs
  | a :: as, bs => mergeInto before a as (merge before as) bs

/-- Sorts a list with so many levels of halving. -/
def mergeSortTo (before : Before) : Nat → List Handle → HostM (List Handle)
  | 0, vs => return vs
  | n + 1, vs =>
    if vs.length ≤ 1 then return vs
    else do
      let left ← mergeSortTo before n (vs.take (vs.length / 2))
      let right ← mergeSortTo before n (vs.drop (vs.length / 2))
      merge before left right

/-- Sorts a list. -/
def mergeSort (before : Before) (vs : List Handle) : HostM (List Handle) :=
  mergeSortTo before vs.length vs

/-- An index, which can lie one past the greatest integer. -/
def indexOf (i : Int) : Except Fault Integer :=
  match Integer.ofInt? i with
  | some n => .ok n
  | none => .error (.indexNotInteger i)

namespace HostM

/-- Asks a predicate of the program. -/
def holds (run : Runner) (predicate : Handle) : Before := fun a b => do
  onHeap (HeapM.asBoolean (← callValue run predicate [a, b]))

/-- Sorts an array. -/
def sort (run : Runner) (array before : Handle) : HostM Unit := do
  let items ← onHeap (HeapM.elements array)
  let sorted ← mergeSort (holds run before) items
  onHeap (HeapM.setElements array sorted)

/-- The index of the first element that equals a value, counted from an index, or the index after
the last one. -/
def findFrom (equal : Handle → HostM Bool) : Int → List Handle → HostM Integer
  | i, [] => of (indexOf i)
  | i, v :: vs => do if ← equal v then of (indexOf i) else findFrom equal (i + 1) vs

/-- The first index of a value in an array. -/
def find (run : Runner) (array elem equal : Handle) : HostM Integer := do
  let (start, _) ← onHeap (HeapM.bounds array)
  let items ← onHeap (HeapM.elements array)
  findFrom (holds run equal · elem) start.toInt items

/-- Searches the indices from `low` to `high`, halving them so many times. -/
def searchTo (run : Runner) (array elem before : Handle) : Nat → Int → Int → HostM Integer
  | 0, _, high => of (indexOf (high + 1))
  | n + 1, low, high => do
    if high < low then of (indexOf (high + 1))
    else
      let mid := low + (high - low) / 2
      let item ← onHeap (HeapM.elementAt array (← of (indexOf mid)))
      if ← holds run before item elem then searchTo run array elem before n (mid + 1) high
      else if ← holds run before elem item then searchTo run array elem before n low (mid - 1)
      else of (indexOf mid)

/-- The index of a value in a sorted array, or the index at which it would stand. -/
def findSorted (run : Runner) (array elem before : Handle) : HostM Integer := do
  let (start, _) ← onHeap (HeapM.bounds array)
  let length ← onHeap (HeapM.length array)
  searchTo run array elem before length start.toInt (start.toInt + length - 1)

end HostM

end ScriptHost
