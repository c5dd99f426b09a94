import OrderedIndex.Text.Invisible

/-!
# Diagnostic text

A value's diagnostic text is laid out from a `Form`: a text that stands as it is, a key with its
value, or a group of items between an opening and a closing text.  A form has two layouts, one on a
single line and one with each item of a group on a line of its own.

A text stands between double quotes.  The quote and the backslash are escaped by a backslash, tabs,
line ends and the null character have an escape of one letter, and the other invisible characters
are written by their number.
-/

namespace OrderedIndex

/-- A value as it appears in diagnostic text, before it is laid out. -/
inductive Form where
  /-- A text that stands as it is. -/
  | atom (text : String)
  /-- A key and its value, with a colon between. -/
  | entry (key value : Form)
  /-- Items between an opening and a closing text. -/
  | group (opening : String) (items : List Form) (closing : String)

/-- The types whose values have a diagnostic text. -/
class Described (α : Type) where
  /-- The form of a value. -/
  form : α → Form

namespace Form

/-! ## On one line -/

mutual

/-- The layout on one line, with a comma and a blank between items. -/
def inlined : Form → String
  | .atom text => text
  | .entry key value => key.inlined ++ ": " ++ value.inlined
  | .group opening items closing => opening ++ ", ".intercalate (inlinedEach items) ++ closing

/-- The one-line layout of each of some forms. -/
def inlinedEach : List Form → List String
  | [] => []
  | item :: items => item.inlined :: inlinedEach items

end

/-! ## On several lines -/

/-- The blanks in front of a line: four for each group around it. -/
def margin (depth : Nat) : String := String.ofList (List.replicate (4 * depth) ' ')

mutual

/-- The layout with each item of a group on a line of its own and a comma behind it; `depth` counts
the groups around.  A group without items stays on one line. -/
def spreadAt (depth : Nat) : Form → String
  | .atom text => text
  | .entry key value => key.spreadAt depth ++ ": " ++ value.spreadAt depth
  | .group opening items closing =>
    opening ++ (if items.isEmpty then "" else "\n" ++ spreadEach (depth + 1) items ++ margin depth)
      ++ closing

/-- The lines of each of some items. -/
def spreadEach (depth : Nat) : List Form → String
  | [] => ""
  | item :: items => margin depth ++ item.spreadAt depth ++ ",\n" ++ spreadEach depth items

end

/-- The layout on several lines. -/
def spread (form : Form) : String := form.spreadAt 0

/-! ## Common forms -/

/-- The form of a list. -/
def list (items : List Form) : Form := .group "[" items "]"

/-- The form of a tuple. -/
def tuple (items : List Form) : Form := .group "(" items ")"

/-- The form of a value that wraps others under a name. -/
def named (name : String) (items : List Form) : Form := .group (name ++ "(") items ")"

/-- The form of a mapping. -/
def mapping (entries : List (Form × Form)) : Form :=
  .group "\x7b" (entries.map fun (key, value) => .entry key value) "\x7d"

end Form

/-! ## Quoted text -/

namespace Quoted

/-- A character as it stands in a quoted text. -/
def escape (c : Char) : List Char :=
  match c with
  | '"' => ['\\', '"']
  | '\\' => ['\\', '\\']
  | '\t' => ['\\', 't']
  | '\r' => ['\\', 'r']
  | '\n' => ['\\', 'n']
  | '\x00' => ['\\', '0']
  | c =>
    if Invisible.contains c then "\\u\x7b".toList ++ Nat.toDigits 16 c.toNat ++ ['\x7d']
    else [c]

/-- A text between quotes. -/
def quote (text : String) : String :=
  String.ofList ('"' :: text.toList.flatMap escape ++ ['"'])

/-- A letter with an accent of its own and a blank without width. -/
example : quote "e\u0301\t\u200b\"" = "\"e\\u\x7b301\x7d\\t\\u\x7b200b\x7d\\\"\"" := by
  decide +kernel

end Quoted

/-! ## Plain values -/

instance : Described Int where
  form n := .atom (toString n)

instance : Described Nat where
  form n := .atom (toString n)

instance : Described UInt8 where
  form n := .atom (toString n)

instance : Described String where
  form s := .atom (Quoted.quote s)

instance : Described Unit where
  form _ := .tuple []

instance {α : Type} [Described α] : Described (Option α) where
  form
    | none => .atom "None"
    | some x => .named "Some" [Described.form x]

instance {α : Type} [Described α] : Described (List α) where
  form xs := .list (xs.map Described.form)

instance {α β : Type} [Described α] [Described β] : Described (α × β) where
  form p := .tuple [Described.form p.1, Described.form p.2]

end OrderedIndex
