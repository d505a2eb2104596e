import CloudTemplate.Intrinsic.Handler

/-!
# Evaluation of intrinsic functions

A dispatch table says which handler evaluates the calls of which function.  A call of any other
function is left as it is.

`Dispatch.evaluate` evaluates all calls in a value, the innermost first.  An entry or item without a
value disappears.  The branches of `Fn::If` keep their places: a branch without a value becomes the
reference that stands for one, and so does any other argument without a value.  Both branches are
evaluated, not only the one that the condition selects.
-/

namespace CloudTemplate.Intrinsic

/-- A table from the names of functions to their handlers. -/
structure Dispatch where
  handlers : Fields Handler
  deriving Inhabited

/-- Why a handler cannot be registered. -/
inductive RegistrationError where
  | unnamed
  deriving DecidableEq, Repr

/-- The refusal in words. -/
def RegistrationError.message : RegistrationError → Text
  | .unnamed => "Action has no intrinsic name"

namespace Dispatch

/-- Let a handler evaluate the calls of a function.  The function must have a name. -/
def register (table : Dispatch) (function : Text) (handler : Handler) :
    Except RegistrationError Dispatch :=
  if function.isEmpty then .error .unnamed
  else .ok ⟨table.handlers.set function handler⟩

/-- The table in which a join is kept. -/
def standard : Dispatch where
  handlers :=
    [Handler.ref, .sub, .getAtt, .findInMap, .join, .ifElse, .select, .base64, .getAZs, .split,
      .importValue, .condition].map fun handler => (handler.function, handler)

/-- The same table with joins carried out where that is possible. -/
def withEagerJoin (table : Dispatch) : Dispatch :=
  ⟨table.handlers.set Intrinsic.join .eagerJoin⟩

/-- The handler of a function. -/
def handler? (table : Dispatch) (function : Text) : Option Handler :=
  table.handlers.get? function

/-- The functions with a handler, in increasing order. -/
def functions (table : Dispatch) : List Text :=
  (SortedSet.ofList table.handlers.names).toList

/-- Evaluate a call whose argument is evaluated. -/
def invoke (table : Dispatch) (d : Deployment) (function : Text) (argument : Value) :
    Except Error Outcome :=
  match table.handler? function with
  | none => .ok (.value (.call function argument))
  | some handler =>
    match handler.eval d argument with
    | .ok outcome => .ok outcome
    | .error fault => .error { function := handler.function, fault }

mutual

/-- Evaluate all calls in a value. -/
def evaluate (table : Dispatch) (d : Deployment) : Value → Except Error Outcome
  | .map [(name, argument)] =>
    if isName name then do
      let argument ← match argument with
        | .list items =>
          if name = ifElse then Value.list <$> evaluateBranches table d items
          else Value.list <$> evaluateItems table d items
        | v => Outcome.kept <$> evaluate table d v
      table.invoke d name argument
    else do
      let outcome ← evaluate table d argument
      return .value (.map (outcome.entry name))
  | .map entries => return .value (.map (← evaluateEntries table d entries))
  | .list items => return .value (.list (← evaluateItems table d items))
  | v => .ok (.value v)

/-- Evaluate the items of a list. -/
def evaluateItems (table : Dispatch) (d : Deployment) : List Value → Except Error (List Value)
  | [] => .ok []
  | v :: rest => do
    let outcome ← evaluate table d v
    let rest ← evaluateItems table d rest
    return outcome.item ++ rest

/-- Evaluate the entries of a map. -/
def evaluateEntries (table : Dispatch) (d : Deployment) :
    List (Text × Value) → Except Error (List (Text × Value))
  | [] => .ok []
  | (name, v) :: rest => do
    let outcome ← evaluate table d v
    let rest ← evaluateEntries table d rest
    return outcome.entry name ++ rest

/-- Evaluate the branches of a conditional, each in its place. -/
def evaluateBranches (table : Dispatch) (d : Deployment) : List Value → Except Error (List Value)
  | [] => .ok []
  | v :: rest => do
    let outcome ← evaluate table d v
    let rest ← evaluateBranches table d rest
    return outcome.kept :: rest

end

end Dispatch

end CloudTemplate.Intrinsic
