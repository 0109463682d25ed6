import ScriptHost.Scope.SymbolTable

/-!
# Stacks of frames

The frames of an environment, innermost first, with a limit on their number, where zero stands for
no limit, and the greatest number there has been. A frame that would pass the limit is refused, and
the stack stays as it is.
-/

set_option autoImplicit false

namespace ScriptHost

/-- Frames, innermost first. -/
structure Stack where
  frames : List SymbolTable
  limit : Nat
  attained : Nat

/-- A step over a stack. -/
abbrev StackM := EStateM Fault Stack

namespace Stack

/-- The stack without frames. -/
def empty (limit : Nat) : Stack := ⟨[], limit, 0⟩

/-- The number of frames. -/
def depth (s : Stack) : Nat := s.frames.length

/-- Whether one more frame passes the limit. -/
def isFull (s : Stack) : Bool := 0 < s.limit && s.limit < s.depth + 1

/-- Puts a frame on top. -/
def push (frame : SymbolTable) : StackM Unit := fun s =>
  if s.isFull then .error (.stackOverflow (s.depth + 1) s.limit) s
  else .ok () { s with frames := frame :: s.frames, attained := max s.attained (s.depth + 1) }

/-- The stack without its innermost frame. -/
def pop (s : Stack) : Stack := { s with frames := s.frames.tail }

/-- The stack cut down to a depth, if it is deeper. -/
def unwind (s : Stack) (depth : Nat) : Stack := { s with frames := s.frames.drop (s.depth - depth) }

/-- A full stack refuses a frame and stays as it is. -/
theorem push_of_isFull {s : Stack} (full : s.isFull = true) (frame : SymbolTable) :
    push frame s = .error (.stackOverflow (s.depth + 1) s.limit) s := by simp [push, full]

@[simp] theorem depth_unwind (s : Stack) (depth : Nat) :
    (s.unwind depth).depth = min s.depth depth := by
  simp only [unwind, Stack.depth, List.length_drop]; omega

end Stack

end ScriptHost
