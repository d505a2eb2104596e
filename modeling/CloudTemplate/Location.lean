import CloudTemplate.Text.Split
import CloudTemplate.Number.Text

/-!
# Locations in a document

A location is written as the names and indices that lead to a node from the root: a name follows a
dot unless it comes first, an index stands in brackets.  Since a name may itself hold dots and
brackets, what a location says is read off its text alone; in particular the resource to which a
location belongs is the text between `Resources.` and the next dot.
-/

namespace CloudTemplate

/-- A place in a document, in writing. -/
structure Location where
  text : Text
  deriving DecidableEq, Inhabited

namespace Location

/-- The whole document. -/
def root : Location := ⟨""⟩

/-- Whether the location is the whole document. -/
def isRoot (l : Location) : Bool := l.text.isEmpty

/-- The place of the entry called `name`. -/
def entry (l : Location) (name : Text) : Location :=
  if l.isRoot then ⟨name⟩ else ⟨l.text ++ "." ++ name⟩

/-- The place of the item with an index. -/
def item (l : Location) (index : Nat) : Location :=
  ⟨l.text ++ "[" ++ Number.natural index ++ "]"⟩

/-- What the locations inside the resources begin with. -/
def resourceMark : Text := "Resources."

/-- The name of the resource to which the location belongs. -/
def resource? (l : Location) : Option Text :=
  if Text.startsWith resourceMark l.text then
    let name := Text.before '.' (l.text.drop resourceMark.length)
    if name.isEmpty then none else some name
  else none

end Location

end CloudTemplate
