import CloudTemplate.Text

/-!
# Output for a console

What is shown on a console is a line of text, a tree of labels or a table.  Texts have styles by
name; how a style looks is up to the console.  Characters that would move the cursor are taken out
of every text that is shown.
-/

namespace CloudTemplate.Console

/-- Whether a code point would move the cursor or ring the bell. -/
def isControl (c : CodePoint) : Bool :=
  c = '\x07' || c = '\x08' || c = '\x0b' || c = '\x0c' || c = '\r'

/-- A text without the characters that would move the cursor. -/
def clean (t : Text) : Text :=
  t.filter fun c => !isControl c

/-- A stretch of a label that has a style of its own, from `start` up to `stop`. -/
structure Span where
  start : Nat
  stop : Nat
  style : String
  deriving DecidableEq

/-- A text with a style. -/
structure Label where
  text : Text
  style : String
  spans : List Span := []
  deriving DecidableEq, Inhabited

namespace Label

/-- A text in one style. -/
def styled (style : String) (text : Text) : Label := { text := clean text, style }

/-- A label followed by a text in another style. -/
def append (label : Label) (style : String) (text : Text) : Label :=
  let added := clean text
  { label with
    text := label.text ++ added
    spans := label.spans ++
      [⟨label.text.length, label.text.length + added.length, style⟩] }

end Label

/-- A label with trees below it. -/
inductive Tree where
  | node (label : Label) (children : List Tree)
  deriving Inhabited

/-- The side to which the cells of a column are moved. -/
inductive Side where
  | left
  | right
  deriving DecidableEq

/-- A column of a table. -/
structure Column where
  header : String
  style : String := ""
  side : Side := .left

/-- A table with a title. -/
structure Table where
  title : Text
  columns : List Column
  rows : List (List Text)

/-- What is printed on a console at once. -/
inductive Output where
  | line (text : Text)
  | tree (t : Tree)
  | table (t : Table)

end CloudTemplate.Console
