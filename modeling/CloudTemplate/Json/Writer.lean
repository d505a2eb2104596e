import CloudTemplate.Value
import CloudTemplate.Number.Text

/-!
# Writing documents

A document is written on one line (`compact`) or with each item and entry on a line of its own,
indented by two spaces a level (`indented`).  The text is ASCII: any other code point is written by
its UTF-16 units, four lower-case hexadecimal digits each.  A surrogate is a unit itself.
-/

namespace CloudTemplate.Json

/-- A unit of text as an escape. -/
def unitEscape (unit : Nat) : String :=
  "\\u" ++ Number.hexadecimal 4 unit

/-- A character inside quotes. -/
def escapedChar (c : Char) : String :=
  if c = '"' then "\\\""
  else if c = '\\' then "\\\\"
  else if c = '\n' then "\\n"
  else if c = '\r' then "\\r"
  else if c = '\t' then "\\t"
  else if c = '\x08' then "\\b"
  else if c = '\x0c' then "\\f"
  else if ' ' ≤ c ∧ c ≤ '~' then String.ofList [c]
  else if c.toNat < 0x10000 then unitEscape c.toNat
  else
    let beyond := c.toNat - 0x10000
    unitEscape (0xD800 + beyond / 0x400) ++ unitEscape (0xDC00 + beyond % 0x400)

/-- A code point inside quotes. -/
def escapedPoint : CodePoint → String
  | .char c => escapedChar c
  | .surrogate n => unitEscape (0xD800 + n)

/-- A text inside quotes. -/
def quotedText (t : Text) : String :=
  "\"" ++ String.join (t.map escapedPoint) ++ "\""

/-- A value that holds no others, or a list or map without content. -/
def scalar : Value → String
  | .null => "null"
  | .bool b => if b then "true" else "false"
  | .int n => Number.integer n
  | .double x => Number.double .document x
  | .string t => quotedText t
  | .list _ => "[]"
  | .map _ => "\x7b\x7d"

mutual

/-- A value on one line. -/
def compact : Value → String
  | .list items => "[" ++ String.intercalate ", " (compactItems items) ++ "]"
  | .map entries => "\x7b" ++ String.intercalate ", " (compactEntries entries) ++ "\x7d"
  | v => scalar v

/-- The items of a list, each on one line. -/
def compactItems : List Value → List String
  | [] => []
  | v :: rest => compact v :: compactItems rest

/-- The entries of a map, each on one line. -/
def compactEntries : List (Text × Value) → List String
  | [] => []
  | (name, v) :: rest => (quotedText name ++ ": " ++ compact v) :: compactEntries rest

end

/-- A new line at the given level. -/
def newLine (level : Nat) : String :=
  "\n" ++ String.ofList (List.replicate (2 * level) ' ')

/-- Lines between brackets, one level deeper than the brackets. -/
def bracketed (level : Nat) (opening closing : String) (lines : List String) : String :=
  opening ++ newLine (level + 1) ++ String.intercalate ("," ++ newLine (level + 1)) lines
    ++ newLine level ++ closing

mutual

/-- A value that begins on a line of the given level. -/
def indentedAt (level : Nat) : Value → String
  | .list [] => "[]"
  | .list (v :: rest) =>
    bracketed level "[" "]" (indentedAt (level + 1) v :: indentedItems (level + 1) rest)
  | .map [] => "\x7b\x7d"
  | .map ((name, v) :: rest) =>
    bracketed level "\x7b" "\x7d"
      ((quotedText name ++ ": " ++ indentedAt (level + 1) v)
        :: indentedEntries (level + 1) rest)
  | v => scalar v

/-- The items of a list that lie at the given level. -/
def indentedItems (level : Nat) : List Value → List String
  | [] => []
  | v :: rest => indentedAt level v :: indentedItems level rest

/-- The entries of a map that lie at the given level. -/
def indentedEntries (level : Nat) : List (Text × Value) → List String
  | [] => []
  | (name, v) :: rest =>
    (quotedText name ++ ": " ++ indentedAt level v) :: indentedEntries level rest

end

/-- A document with each item and entry on a line of its own. -/
def indented (v : Value) : String :=
  indentedAt 0 v

end CloudTemplate.Json
