import CloudTemplate.Cloud
import CloudTemplate.Cloud.Redaction
import CloudTemplate.Template

/-!
# Values from the parameter store

A parameter whose type says so has a name in the parameter store for its value: the one that the
caller gives, or its default.  The store is asked for all those names at once, each of them once, in
batches; it has to know every one.
-/

namespace CloudTemplate.Cloud

/-- Why stored values cannot be had. -/
inductive StoreError where
  | refused (refusal : CloudRefusal)
  | missing (names : List Text)
  deriving DecidableEq

/-- The reason in words. -/
def StoreError.message : StoreError → Text
  | .refused refusal => "Failed to fetch parameters from SSM: " ++ Redaction.redact refusal.text
  | .missing names => "SSM parameter(s) not found: " ++ Text.join ", " names

/-- The name in the store for a parameter: an override before a default. -/
def storedName? (overrides : Fields Value) (name : Text) (p : Parameter) : Option Text :=
  ((overrides.get? name).or p.seed?).map Value.shown

/-- The parameters whose values are in the store, each with its name there. -/
def storedNames (t : Template) (overrides : Fields Value) : Fields Text :=
  (t.parameters.getD []).filterMap fun (name, p) =>
    if p.isStored then (storedName? overrides name p).map fun stored => (name, stored) else none

/-- The most names that the store takes at once. -/
def batchSize : Nat := 10

/-- A list in batches. -/
def batches (names : List Text) : List (List Text) :=
  match names with
  | [] => []
  | name :: rest =>
    (name :: rest.take (batchSize - 1)) :: batches (rest.drop (batchSize - 1))
termination_by names.length
decreasing_by all_goals simp only [List.length_cons, List.length_drop]; omega

/-- Ask for the batches one after the other and put the answers together. -/
def fetchBatches (cloud : Cloud) :
    List (List Text) → Dialogue StoreError (Fields Text × List Text)
  | [] => return ([], [])
  | batch :: rest => do
    Recorded.note (.parameters batch false)
    let answer ← (Recorded.ofExcept (cloud.parameters batch)).mapError .refused
    let (found, invalid) ← cloud.fetchBatches rest
    let here := Fields.ofList (answer.found.map fun (name, v) => (name, v.getD ""))
    return (here.update found, answer.invalid ++ invalid)

/-- The value of a parameter, given what the store holds under its name: a list is split at its
commas. -/
def storedValue (p : Parameter) (stored : Text) : Value :=
  if p.isListed then .ofStrings (stored.splitOn (.char ',')) else .string stored

/-- The values of the parameters whose values are in the store. -/
def fetchParameters (cloud : Cloud) (t : Template) (overrides : Fields Value)
    (profile region : Option Text) : Dialogue StoreError (Fields Value) := do
  let names := storedNames t overrides
  if names.isEmpty then return []
  Recorded.note (.session profile region)
  Recorded.note (.client "ssm" none)
  let wanted := (SortedSet.ofList names.values).toList
  let (found, invalid) ← cloud.fetchBatches (batches wanted)
  let silent := wanted.filter fun name => !found.has name && !invalid.contains name
  let missing := invalid ++ silent
  if missing.isEmpty then
    return names.filterMap fun (name, stored) => do
      let p ← (t.parameters.getD []).get? name
      return (name, storedValue p ((found.get? stored).getD ""))
  else Recorded.ofExcept (.error (.missing (missing.mergeSort fun a b => a ≤ b)))

end CloudTemplate.Cloud
