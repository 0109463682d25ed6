import ScriptHost.Value.Convert

/-!
# Images

The image of a value is the value as a tree: its contents with images for parts, and at every node
whether the cell was locked. It is the complete view of a value at one moment. `Image.text` is how a
value is shown.
-/

set_option autoImplicit false

namespace ScriptHost

/-- A value as a tree. -/
inductive Image where
  | node (locked : Bool) (data : Data Image)

namespace Image

/-- Whether the cell was locked. -/
def locked : Image → Bool
  | .node l _ => l

/-- The contents. -/
def data : Image → Data Image
  | .node _ d => d

/-- The kind of the value. -/
def kind (i : Image) : Kind := i.data.kind

/-- Items after an opening, separated by commas and closed by a brace. -/
def braced (opening : String) (items : List String) : String :=
  opening ++ "\x7b" ++ String.intercalate "," (items.map (" " ++ ·)) ++ " \x7d"

/-- A leaf as text. -/
def leafText : Leaf → String
  | .null => "NULL"
  | .type t => t.text
  | .boolean b => booleanText b
  | .integer i _ => i.text
  | .real r _ => Decimal.general r.toFloat
  | .string s => s
  | .executable e => e.text

mutual

/-- A value as text. -/
def text : Image → String
  | .node _ (.leaf l) => leafText l
  | .node _ (.array ⟨start, items, filled, element, policy⟩) =>
    let finish := (Sequence.mk start items filled element policy).finish
    braced ("Array [" ++ start.text ++ ", " ++ finish.text ++ "]") (itemTexts items)
  | .node _ (.dictionary ⟨entries⟩) => braced "Dictionary " (entryTexts entries)
  | .node _ (.record ⟨type, members⟩) =>
    braced (((type.bind (·.name)).getD Kind.record.name) ++ " ") (memberTexts members)

/-- Elements as text. -/
def itemTexts : List Image → List String
  | [] => []
  | i :: is => i.text :: itemTexts is

/-- Entries as text. -/
def entryTexts : List (Key × Image) → List String
  | [] => []
  | (k, i) :: es => (k.text ++ ": " ++ i.text) :: entryTexts es

/-- Members as text. -/
def memberTexts : List (String × Image) → List String
  | [] => []
  | (n, i) :: ms => (n ++ ": " ++ i.text) :: memberTexts ms

end

/-- A value as text with its kind and its lock. -/
def debugText (i : Image) : String :=
  i.kind.name ++ "(" ++ i.text ++ (if i.locked then ", locked)" else ")")

end Image

end ScriptHost
