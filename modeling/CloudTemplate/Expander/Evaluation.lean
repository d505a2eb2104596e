import CloudTemplate.Expander
import CloudTemplate.Recorded

/-!
# Evaluation with locations

`Expander.evaluate` evaluates all calls in a value that stands at a location, the innermost first.
Like `Intrinsic.Dispatch.evaluate` it drops entries and items without a value and keeps the places
of arguments.  Beyond that

* the names of resources are renamed in the argument of a call before anything else happens to it,
* some calls are left as they stand,
* every call that refers from one resource to another is noted as an edge, before its argument is
  evaluated, and
* an error has the location of the innermost call in which it arises.
-/

namespace CloudTemplate.Expander

open Intrinsic (Error isName)

mutual

/-- Evaluate all calls in a value. -/
def evaluate (e : Expander) (l : Location) : Value → Recorded Edge Error Outcome
  | .map [(name, argument)] =>
    if isName name then e.evaluateCall l name argument
    else do
      let outcome ← e.evaluate (l.entry name) argument
      return .value (.map (outcome.entry name))
  | .map entries => return .value (.map (← e.evaluateEntries l entries))
  | .list items => return .value (.list (← e.evaluateItems l 0 items))
  | v => return .value v
termination_by v => 3 * v.size
decreasing_by all_goals simp only [Value.size, Value.sizeEntries]; omega

/-- Evaluate a call. -/
def evaluateCall (e : Expander) (l : Location) (function : Text) (argument : Value) :
    Recorded Edge Error Outcome :=
  let renamed := e.renameIn argument
  if e.isVerbatim function renamed then return .value (.call function argument)
  else do
    Recorded.noteAll (e.edge? l function renamed).toList
    Recorded.mapError (Error.locatedAt l) do
      let argument ← e.evaluateArgument (l.entry function) function renamed
      Recorded.ofExcept (e.dispatch.invoke e.deployment function argument)
termination_by 3 * argument.size + 2
decreasing_by rw [size_renameIn]; omega

/-- Evaluate the argument of a call.  The branches of a conditional keep their places. -/
def evaluateArgument (e : Expander) (l : Location) (function : Text) (argument : Value) :
    Recorded Edge Error Value :=
  match argument with
  | .list items =>
    if function = Intrinsic.ifElse then return .list (← e.evaluateBranches l 0 items)
    else return .list (← e.evaluateItems l 0 items)
  | v => return (← e.evaluate l v).kept
termination_by 3 * argument.size + 1
decreasing_by
  · simp only [Value.size]; omega
  · simp only [Value.size]; omega
  · omega

/-- Evaluate the items of a list, the first of which has the given index. -/
def evaluateItems (e : Expander) (l : Location) (index : Nat) :
    List Value → Recorded Edge Error (List Value)
  | [] => return []
  | v :: rest => do
    let outcome ← e.evaluate (l.item index) v
    let rest ← e.evaluateItems l (index + 1) rest
    return outcome.item ++ rest
termination_by items => 3 * Value.sizeItems items
decreasing_by all_goals simp only [Value.sizeItems]; omega

/-- Evaluate the entries of a map. -/
def evaluateEntries (e : Expander) (l : Location) :
    List (Text × Value) → Recorded Edge Error (List (Text × Value))
  | [] => return []
  | (name, v) :: rest => do
    let outcome ← e.evaluate (l.entry name) v
    let rest ← e.evaluateEntries l rest
    return outcome.entry name ++ rest
termination_by entries => 3 * Value.sizeEntries entries
decreasing_by all_goals simp only [Value.sizeEntries]; omega

/-- Evaluate the branches of a conditional, the first of which has the given index. -/
def evaluateBranches (e : Expander) (l : Location) (index : Nat) :
    List Value → Recorded Edge Error (List Value)
  | [] => return []
  | v :: rest => do
    let outcome ← e.evaluate (l.item index) v
    let rest ← e.evaluateBranches l (index + 1) rest
    return outcome.kept :: rest
termination_by items => 3 * Value.sizeItems items
decreasing_by all_goals simp only [Value.sizeItems]; omega

end

/-- Keep the edges that a computation noted. -/
def keep {ε α : Type} (e : Expander) (x : Recorded Edge ε α) : Except ε α × Expander :=
  (x.result, { e with graph := e.graph.insertAll x.notes })

/-- Evaluate all calls in a value and keep the edges, also those noted before an error. -/
def resolve (e : Expander) (v : Value) (l : Location) : Except Error Outcome × Expander :=
  e.keep (e.evaluate l v)

end CloudTemplate.Expander
