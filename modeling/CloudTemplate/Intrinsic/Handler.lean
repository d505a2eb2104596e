import CloudTemplate.Intrinsic.Fault
import CloudTemplate.Intrinsic.Substitution

/-!
# The intrinsic functions that are known

A handler takes an argument in which nothing is left to evaluate.  It gives a value, or the call
itself, which is then up to the deployment; or it finds a fault.
-/

namespace CloudTemplate.Intrinsic

/-- The elements of an array, of which `due` are expected. -/
def elements (due : Nat) : Value → Except Fault (List Value)
  | .list items => if items.length = due then .ok items else .error (.elementCount due items.length)
  | got => .error (.notArray got)

/-- The call of a function, kept. -/
def kept (function : Text) (argument : Value) : Except Fault Outcome :=
  .ok (.value (.call function argument))

/-- The value of a pseudo-parameter or parameter. -/
def evalRef (d : Deployment) : Value → Except Fault Outcome
  | .string name =>
    if name = Pseudo.noValue then .ok .noValue
    else
      match d.pseudo.get? name, d.parameters.get? name with
      | some text, _ => .ok (.value (.string text))
      | none, some v => .ok (.value v)
      | none, none => kept ref (.string name)
  | got => .error (.notString got)

/-- The texts of a list of strings. -/
def attributeParts : List Value → Except Fault (List Text)
  | [] => .ok []
  | .string s :: rest => return s :: (← attributeParts rest)
  | got :: _ => .error (.attributePart got)

/-- The resource and the attribute that an argument names: the first string of an array and the
others with dots between them, or the parts of a string before and behind its first dot. -/
def attributeTarget : Value → Except Fault (Text × Text)
  | .list items =>
    if items.length < 2 then .error .attributeTooShort
    else do
      match ← attributeParts items with
      | [] => .error .attributeTooShort
      | resource :: attr => return (resource, Text.join "." attr)
  | .string text =>
    match Text.cut '.' text with
    | (resource, some attr) =>
      if resource.isEmpty || attr.isEmpty then .error (.attributeText text)
      else .ok (resource, attr)
    | (_, none) => .error (.attributeText text)
  | got => .error (.attributeShape got)

/-- The known value of an attribute of a resource. -/
def evalGetAtt (d : Deployment) (argument : Value) : Except Fault Outcome := do
  let (resource, attr) ← attributeTarget argument
  if d.listsResources && !d.declaresResource resource then .error (.noResource resource)
  else
    match d.attribute? resource attr with
    | some v => return .value v
    | none => kept getAtt (.ofStrings [resource, attr])

/-- A key of a mapping: a string, or none yet where a call stands. -/
def mapKey (label : Text) : Value → Except Fault (Option Text)
  | .string s => .ok (some s)
  | .map _ => .ok none
  | got => .error (.mapKey label got)

/-- The entry of a mapping under two keys. -/
def findEntry (d : Deployment) (name topKey secondKey : Text) : Except Fault Value :=
  match (d.mappings.getD []).get? name with
  | none => .error (.noMapping name)
  | some (.map mapping) =>
    match Fields.get? mapping topKey with
    | none => .error (.noTopKey name topKey)
    | some (.map topLevel) =>
      match Fields.get? topLevel secondKey with
      | none => .error (.noSecondKey name topKey secondKey)
      | some v => .ok v
    | some _ => .error (.topLevelShape name topKey)
  | some _ => .error (.mappingShape name)

/-- The entry of a mapping, once all keys are known. -/
def evalFindInMap (d : Deployment) (argument : Value) : Except Fault Outcome := do
  match ← elements 3 argument with
  | [mapping, top, second] =>
    let mapping ← mapKey "MapName" mapping
    let top ← mapKey "TopLevelKey" top
    let second ← mapKey "SecondLevelKey" second
    match mapping, top, second with
    | some mapping, some top, some second => return .value (← findEntry d mapping top second)
    | _, _, _ => kept findInMap argument
  | items => .error (.elementCount 3 items.length)

/-- The branch that a condition selects, once its outcome is known. -/
def evalIf (d : Deployment) (argument : Value) : Except Fault Outcome := do
  match ← elements 3 argument with
  | [.string name, whenTrue, whenFalse] =>
    match d.conditions.get? name with
    | none => kept ifElse argument
    | some b =>
      let branch := if b then whenTrue else whenFalse
      return if branch.isNoValueRef then .noValue else .value branch
  | got :: _ => .error (.conditionName got)
  | [] => .error (.elementCount 3 0)

/-- The outcome of a condition, once it is known. -/
def evalCondition (d : Deployment) : Value → Except Fault Outcome
  | .string name =>
    match d.conditions.get? name with
    | some b => .ok (.value (.bool b))
    | none => kept condition (.string name)
  | got => .error (.notString got)

/-- The delimiter and the items to be joined. -/
def joinParts (argument : Value) : Except Fault (Text × Value) := do
  match ← elements 2 argument with
  | [.string delimiter, items] =>
    match items with
    | .list _ | .map _ => return (delimiter, items)
    | got => .error (.joinItems got)
  | got :: _ => .error (.delimiter got)
  | [] => .error (.elementCount 2 0)

/-- A join is checked and kept. -/
def evalJoin (argument : Value) : Except Fault Outcome := do
  let _ ← joinParts argument
  kept join argument

/-- The strings of a list that holds nothing else. -/
def strings? : List Value → Option (List Text)
  | [] => some []
  | .string s :: rest => (strings? rest).map (s :: ·)
  | _ :: _ => none

/-- A join is carried out if all items are strings already. -/
def evalEagerJoin (argument : Value) : Except Fault Outcome := do
  match ← joinParts argument with
  | (delimiter, .list items) =>
    match strings? items with
    | some texts => return .value (.string (Text.join delimiter texts))
    | none => kept join argument
  | _ => kept join argument

/-- A selection is checked and kept. -/
def evalSelect (argument : Value) : Except Fault Outcome := do
  let _ ← elements 2 argument
  kept select argument

/-- A split is checked and kept. -/
def evalSplit (argument : Value) : Except Fault Outcome := do
  match ← elements 2 argument with
  | .string _ :: _ => kept split argument
  | got :: _ => .error (.delimiter got)
  | [] => .error (.elementCount 2 0)

/-- A text with variables, alone or with a map of local ones. -/
def evalSub (d : Deployment) : Value → Except Fault Outcome
  | .string text => .ok (.value (Substitution.substitute d [] text))
  | .list [.string text, .map locals] => .ok (.value (Substitution.substitute d locals text))
  | .list [.string _, got] => .error (.subLocals got)
  | .list [got, _] => .error (.subText got)
  | .list _ => .error .subElementCount
  | got => .error (.subShape got)

/-- A way to evaluate a call. -/
inductive Handler where
  | ref
  | sub
  | getAtt
  | findInMap
  | join
  | ifElse
  | select
  | base64
  | getAZs
  | split
  | importValue
  | condition
  | eagerJoin
  deriving DecidableEq, Repr

namespace Handler

/-- The function that a handler evaluates. -/
def function : Handler → Text
  | ref => Intrinsic.ref
  | sub => Intrinsic.sub
  | getAtt => Intrinsic.getAtt
  | findInMap => Intrinsic.findInMap
  | join | eagerJoin => Intrinsic.join
  | ifElse => Intrinsic.ifElse
  | select => Intrinsic.select
  | base64 => Intrinsic.base64
  | getAZs => Intrinsic.getAZs
  | split => Intrinsic.split
  | importValue => Intrinsic.importValue
  | condition => Intrinsic.condition

/-- Evaluate a call whose argument is evaluated. -/
def eval (d : Deployment) (argument : Value) : Handler → Except Fault Outcome
  | ref => evalRef d argument
  | sub => evalSub d argument
  | getAtt => evalGetAtt d argument
  | findInMap => evalFindInMap d argument
  | join => evalJoin argument
  | ifElse => evalIf d argument
  | select => evalSelect argument
  | split => evalSplit argument
  | condition => evalCondition d argument
  | eagerJoin => evalEagerJoin argument
  | base64 => kept Intrinsic.base64 argument
  | getAZs => kept Intrinsic.getAZs argument
  | importValue => kept Intrinsic.importValue argument

end Handler

end CloudTemplate.Intrinsic
