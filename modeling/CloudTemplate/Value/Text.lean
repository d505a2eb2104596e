import CloudTemplate.Number.Text
import CloudTemplate.Text.Printable
import CloudTemplate.Text.Split
import CloudTemplate.Value

/-!
# Texts and values inside running text

Messages put names and texts between quotes (`Text.quoted`).  The quote is a single one unless the
text holds a single quote and no double quote.  The quote in use, the backslash and the code points
that are not printable are escaped; a printable character stands for itself.

`Value.quoted` shows a value inside a message: strings are quoted, lists and maps have brackets,
null and the truth values are capitalised words.  `Value.text` shows a value as the text that takes
the place of a variable: strings stand as they are, whole numbers have no point, the items of a
list are separated by commas and null leaves nothing.
-/

namespace CloudTemplate

/-! ### Texts between quotes -/

namespace Text

/-- The quote for a text: single, unless only a double one avoids an escape. -/
def quoteFor (t : Text) : CodePoint :=
  if t.contains '\'' && !t.contains '"' then '"' else '\''

/-- A code point as it stands between quotes. -/
def quotedPoint (quote c : CodePoint) : Text :=
  if c = quote || c = '\\' then ['\\', c]
  else if c = '\n' then "\\n"
  else if c = '\r' then "\\r"
  else if c = '\t' then "\\t"
  else if CharacterSet.printable.contains c then [c]
  else if c.value < 0x100 then "\\x" ++ Number.hexadecimal 2 c.value
  else if c.value < 0x10000 then "\\u" ++ Number.hexadecimal 4 c.value
  else "\\U" ++ Number.hexadecimal 8 c.value

/-- A text between quotes. -/
def quoted (t : Text) : Text :=
  let quote := quoteFor t
  quote :: t.flatMap (quotedPoint quote) ++ [quote]

end Text

/-! ### Values -/

namespace Value

mutual

/-- A value as messages show it. -/
def quoted : Value → Text
  | .null => "None"
  | .bool b => if b then "True" else "False"
  | .int n => Number.integer n
  | .double x => Number.double .plain x
  | .string s => Text.quoted s
  | .list items => "[" ++ Text.join ", " (quotedItems items) ++ "]"
  | .map entries => "\x7b" ++ Text.join ", " (quotedEntries entries) ++ "\x7d"

/-- The items of a list as messages show them. -/
def quotedItems : List Value → List Text
  | [] => []
  | v :: rest => v.quoted :: quotedItems rest

/-- The entries of a map as messages show them. -/
def quotedEntries : List (Text × Value) → List Text
  | [] => []
  | (key, v) :: rest => (Text.quoted key ++ ": " ++ v.quoted) :: quotedEntries rest

end

/-- A value as messages show it, a string without its quotes. -/
def shown : Value → Text
  | .string s => s
  | v => v.quoted

mutual

/-- The text that takes the place of a variable with this value. -/
def text : Value → Text
  | .null => ""
  | .bool b => if b then "true" else "false"
  | .int n => Number.integer n
  | .double x =>
    match x.whole? with
    | some n => Number.integer n
    | none => Number.double .plain x
  | .string s => s
  | .list items => Text.join "," (textItems items)
  | .map entries => (Value.map entries).quoted

/-- The texts of the items of a list. -/
def textItems : List Value → List Text
  | [] => []
  | v :: rest => v.text :: textItems rest

end

theorem textItems_eq_map (items : List Value) : textItems items = items.map text := by
  induction items with
  | nil => rfl
  | cons v rest ih => rw [textItems, ih, List.map_cons]

end Value

end CloudTemplate
