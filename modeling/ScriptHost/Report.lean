import ScriptHost.Value.Image

/-!
# Reports

What a program learns about the state that is no value of its own: plain data, with images for
values. A report can be used where a value is needed; a plain one then becomes a new value, and
lists, records and images become Null.
-/

set_option autoImplicit false

namespace ScriptHost

/-- Plain data about the state. -/
inductive Report where
  | nothing
  | flag (b : Bool)
  | number (n : Int)
  | text (s : String)
  | image (i : Image)
  | list (items : List Report)
  | record (fields : List (String × Report))

namespace Report

/-- A real, by its bits. -/
def real (r : Float) : Report := .text (Binary64.hex r)

/-- An integer. -/
def integer (i : Integer) : Report := .number i.toInt

/-- A list of texts. -/
def texts (ss : List String) : Report := .list (ss.map .text)

/-- A text that may be missing. -/
def text? : Option String → Report
  | some s => .text s
  | none => .nothing

/-- A fault: its class and its message. -/
def fault (f : Fault) : Report :=
  .record [("error", .text f.kind.name), ("message", .text f.message)]

/-- A result. -/
def ok (r : Report) : Report := .record [("ok", r)]

/-- The contents of the value that a report stands for, if it stands for one. -/
def toLeaf? : Report → Option Leaf
  | .flag b => some (.boolean b)
  | .number n => (Integer.ofInt? n).map (.integer · none)
  | .text s => some (.string s)
  | _ => none

end Report

end ScriptHost
