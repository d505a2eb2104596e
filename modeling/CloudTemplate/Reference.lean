import CloudTemplate.Intrinsic
import CloudTemplate.Location

/-!
# The references in a document

`Reference.collect` lists every reference in a document without evaluating anything: a node before
its contents, the entries of maps and the items of lists in their order.  A reference is a map whose
only entry is a `Ref` with a string, or an `Fn::GetAtt` with an array that begins with two strings
or with a string that holds a dot.
-/

namespace CloudTemplate

/-- A reference to a name, or to an attribute of what it names, at a location. -/
structure Reference where
  target : Text
  attr : Option Text
  location : Location
  deriving DecidableEq, Inhabited

namespace Reference

/-- What the argument of an `Fn::GetAtt` refers to. -/
def attribute? : Value → Option (Text × Text)
  | .list (.string target :: .string attr :: _) => some (target, attr)
  | .string text =>
    match Text.cut '.' text with
    | (target, some attr) => some (target, attr)
    | (_, none) => none
  | _ => none

/-- The reference that the entries of a map at a location make up. -/
def ofEntries? (l : Location) : List (Text × Value) → Option Reference
  | [(name, argument)] =>
    if name = Intrinsic.ref then argument.string?.map fun target => ⟨target, none, l⟩
    else if name = Intrinsic.getAtt then
      (attribute? argument).map fun (target, attr) => ⟨target, some attr, l⟩
    else none
  | _ => none

mutual

/-- The references in a value at a location. -/
def collect (l : Location) : Value → List Reference
  | .map entries => (ofEntries? l entries).toList ++ collectEntries l entries
  | .list items => collectItems l 0 items
  | _ => []

/-- The references in the items of a list, the first of which has the given index. -/
def collectItems (l : Location) (index : Nat) : List Value → List Reference
  | [] => []
  | v :: rest => collect (l.item index) v ++ collectItems l (index + 1) rest

/-- The references in the entries of a map. -/
def collectEntries (l : Location) : List (Text × Value) → List Reference
  | [] => []
  | (name, v) :: rest => collect (l.entry name) v ++ collectEntries l rest

end

end Reference

end CloudTemplate
