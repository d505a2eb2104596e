import CloudTemplate.Value
import CloudTemplate.Text.Split

/-!
# Intrinsic functions

A map with a single entry is a call if its name is that of an intrinsic function: `Ref`, `Condition`
or one that begins with `Fn::`.  The entry's value is the argument.

Evaluating a node either gives a value or says that there is none, and then the node disappears from
the list or map that holds it.  Where a place has to be kept, the reference to the pseudo-parameter
`AWS::NoValue` stands for the missing value.
-/

namespace CloudTemplate

namespace Intrinsic

/-! ### Names of functions -/

def ref : Text := "Ref"
def condition : Text := "Condition"
def sub : Text := "Fn::Sub"
def getAtt : Text := "Fn::GetAtt"
def findInMap : Text := "Fn::FindInMap"
def join : Text := "Fn::Join"
def ifElse : Text := "Fn::If"
def select : Text := "Fn::Select"
def base64 : Text := "Fn::Base64"
def getAZs : Text := "Fn::GetAZs"
def split : Text := "Fn::Split"
def importValue : Text := "Fn::ImportValue"

/-- The pseudo-parameter whose reference stands for a missing value. -/
def noValue : Text := "AWS::NoValue"

/-! ### Calls -/

/-- What the names of all functions but two begin with. -/
def mark : Text := "Fn::"

/-- Whether a name is that of an intrinsic function. -/
def isName (name : Text) : Bool :=
  name = ref || name = condition || Text.startsWith mark name

/-- The function and the argument of the call that the entries of a map make up. -/
def call? : Fields Value → Option (Text × Value)
  | [(name, argument)] => if isName name then some (name, argument) else none
  | _ => none

end Intrinsic

namespace Value

/-- A call of an intrinsic function. -/
def call (function : Text) (argument : Value) : Value :=
  .map [(function, argument)]

/-- The call that stands for a missing value where the place is kept. -/
def noValueRef : Value := call Intrinsic.ref (.string Intrinsic.noValue)

/-- Whether a value is the call that stands for a missing value. -/
def isNoValueRef : Value → Bool
  | .map [(name, .string argument)] => name = Intrinsic.ref && argument = Intrinsic.noValue
  | _ => false

end Value

/-- What the evaluation of a node gives. -/
inductive Outcome where
  | value (v : Value)
  | noValue
  deriving DecidableEq, Inhabited

namespace Outcome

/-- The item that takes the node's place in a list: none if there is no value. -/
def item : Outcome → List Value
  | .value v => [v]
  | .noValue => []

/-- The entry that takes the node's place in a map: none if there is no value. -/
def entry (name : Text) : Outcome → List (Text × Value)
  | .value v => [(name, v)]
  | .noValue => []

/-- The value, or the call that stands for a missing one. -/
def kept : Outcome → Value
  | .value v => v
  | .noValue => .noValueRef

end Outcome

end CloudTemplate
