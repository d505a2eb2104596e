import CloudTemplate.Value
import CloudTemplate.Number.Text
import CloudTemplate.Location

/-!
# Faults of calls

A call can be at fault in two ways: its argument has the wrong structure, or it names something that
does not exist.  A fault tells what is wrong, an error also where: in which function, and at which
location once it is known.
-/

namespace CloudTemplate

namespace Intrinsic

/-- What is wrong with a call.  A `got` is the value that stands where another shape is due. -/
inductive Fault where
  | notString (got : Value)
  | notArray (got : Value)
  | elementCount (due got : Nat)
  | attributeTooShort
  | attributePart (got : Value)
  | attributeText (text : Text)
  | attributeShape (got : Value)
  | mapKey (label : Text) (got : Value)
  | conditionName (got : Value)
  | delimiter (got : Value)
  | joinItems (got : Value)
  | subShape (got : Value)
  | subElementCount
  | subText (got : Value)
  | subLocals (got : Value)
  | noResource (name : Text)
  | noMapping (name : Text)
  | mappingShape (name : Text)
  | noTopKey (mapping key : Text)
  | topLevelShape (mapping key : Text)
  | noSecondKey (mapping topKey key : Text)
  deriving DecidableEq

namespace Fault

/-- Whether the fault is that something named by the call does not exist. -/
def isLookup : Fault → Bool
  | .noResource _ | .noMapping _ | .mappingShape _ | .noTopKey _ _ | .topLevelShape _ _
  | .noSecondKey _ _ _ => true
  | _ => false

/-- A text between single quotes. -/
def named (s : Text) : Text := "'" ++ s ++ "'"

/-- The fault in words. -/
def message : Fault → Text
  | .notString got => "expected string, got " ++ got.kind
  | .notArray got => "expected array, got " ++ got.kind
  | .elementCount due got =>
    "expected " ++ Number.natural due ++ " elements, got " ++ Number.natural got
  | .attributeTooShort => "array must have at least 2 elements"
  | .attributePart got => "attribute parts must be strings, got " ++ got.kind
  | .attributeText text => "invalid string format: " ++ text
  | .attributeShape got => "expected array or string, got " ++ got.kind
  | .mapKey label got => label ++ " must be string or intrinsic, got " ++ got.kind
  | .conditionName got => "condition name must be string, got " ++ got.kind
  | .delimiter got => "delimiter must be string, got " ++ got.kind
  | .joinItems got => "values must be array or intrinsic, got " ++ got.kind
  | .subShape got => "expected string or array, got " ++ got.kind
  | .subElementCount => "array form requires exactly 2 elements"
  | .subText got => "first element must be string, got " ++ got.kind
  | .subLocals got => "second element must be map, got " ++ got.kind
  | .noResource name => "resource " ++ named name ++ " not found"
  | .noMapping name => "mapping " ++ named name ++ " not found"
  | .mappingShape name => "mapping " ++ named name ++ " is not a map"
  | .noTopKey mapping key => "key " ++ named key ++ " not found in mapping " ++ named mapping
  | .topLevelShape mapping key => "value at " ++ named (mapping ++ "." ++ key) ++ " is not a map"
  | .noSecondKey mapping topKey key =>
    "key " ++ named key ++ " not found in mapping " ++ named (mapping ++ "." ++ topKey)

end Fault

/-- A fault, the function in whose call it lies, and the location of the call if it is known. -/
structure Error where
  function : Text
  fault : Fault
  location : Option Location := none
  deriving DecidableEq

namespace Error

/-- The error in words. -/
def message (e : Error) : Text :=
  let whatAndWhere := e.function ++ ": " ++ e.fault.message
  match e.location with
  | none => whatAndWhere
  | some l => l.text ++ ": " ++ whatAndWhere

/-- The error with the location at which it arose, unless it already has one or the location is the
whole document. -/
def locatedAt (l : Location) (e : Error) : Error :=
  match e.location with
  | some _ => e
  | none => if l.isRoot then e else { e with location := some l }

end Error

end Intrinsic

end CloudTemplate
