import CloudTemplate.Intrinsic.Dispatch
import CloudTemplate.Graph.Traversal

/-!
# Expanders

An expander holds what one run needs to expand a template: what is known about the deployment, the
table of handlers, new names for resources, arguments that must never be evaluated, and the graph of
the references that were met so far.
-/

namespace CloudTemplate

/-- What the expansion of a template depends on, and the references it has met. -/
structure Expander where
  deployment : Deployment := {}
  dispatch : Intrinsic.Dispatch := .standard
  renames : Fields Text := []
  placeholders : SortedSet Text := .empty
  graph : Graph := .empty
  deriving Inhabited

namespace Expander

/-- Give a resource a new name, which counts as declared. -/
def rename (e : Expander) (old new : Text) : Expander :=
  { e with renames := e.renames.set old new, deployment := e.deployment.addAlias new }

/-- Give several resources new names, one after the other. -/
def renameAll (e : Expander) (renames : Fields Text) : Expander :=
  renames.foldl (fun e entry => e.rename entry.1 entry.2) e

/-- Never evaluate calls with this argument. -/
def addPlaceholder (e : Expander) (argument : Text) : Expander :=
  { e with placeholders := e.placeholders.insert argument }

/-- The name of a resource in the expanded template. -/
def newName (e : Expander) (name : Text) : Text :=
  (e.renames.get? name).getD name

mutual

/-- The argument of a call with the names of resources renamed: a string, the first item of a list,
or the values of a map in the same way. -/
def renameIn (e : Expander) : Value → Value
  | .string s => .string (e.newName s)
  | .list (.string s :: rest) => .list (.string (e.newName s) :: rest)
  | .map entries => .map (e.renameInEntries entries)
  | v => v

/-- The entries of a map with the names of resources renamed in their values. -/
def renameInEntries (e : Expander) : List (Text × Value) → List (Text × Value)
  | [] => []
  | (name, v) :: rest => (name, e.renameIn v) :: e.renameInEntries rest

end

mutual

/-- A value has as many nodes after the renaming as before. -/
theorem size_renameIn (e : Expander) : ∀ v : Value, (e.renameIn v).size = v.size
  | .null | .bool _ | .int _ | .double _ | .string _ => by simp [renameIn, Value.size]
  | .list [] => by simp [renameIn]
  | .list (.null :: _) | .list (.bool _ :: _) | .list (.int _ :: _) | .list (.double _ :: _)
  | .list (.list _ :: _) | .list (.map _ :: _) => by simp [renameIn]
  | .list (.string _ :: _) => by simp [renameIn, Value.size, Value.sizeItems]
  | .map entries => by simp [renameIn, Value.size, size_renameInEntries e entries]

/-- The entries of a map have as many nodes after the renaming as before. -/
theorem size_renameInEntries (e : Expander) :
    ∀ entries, Value.sizeEntries (e.renameInEntries entries) = Value.sizeEntries entries
  | [] => by simp [renameInEntries]
  | (_, v) :: rest => by
    simp [renameInEntries, Value.sizeEntries, size_renameIn e v, size_renameInEntries e rest]

end

/-- Whether a call is left as it stands: its argument is a placeholder, or its function is only ever
evaluated by the deployment itself. -/
def isVerbatim (e : Expander) (function : Text) (argument : Value) : Bool :=
  function = Intrinsic.importValue || function = Intrinsic.getAZs ||
    match argument with
    | .string s => decide (s ∈ e.placeholders)
    | _ => false

/-- The name to which a call refers, whatever it is the name of. -/
def referenced? (function : Text) : Value → Option Text
  | .string s =>
    if function = Intrinsic.ref then some s
    else if function = Intrinsic.getAtt then some (Text.before '.' s)
    else none
  | .list (.string s :: _) => if function = Intrinsic.getAtt then some s else none
  | _ => none

/-- The edge that a call at a location adds to the graph: from the resource that holds the call to
the resource to which it refers. -/
def edge? (e : Expander) (l : Location) (function : Text) (argument : Value) : Option Edge := do
  let source ← l.resource?
  let target ← referenced? function argument
  if !target.isEmpty && e.deployment.isResource target then some ⟨source, target⟩ else none

/-- The names that the resources of a template have after the expansion, in document order. -/
def resourceNames (e : Expander) (t : Template) : List Text :=
  t.resourceNames.map e.newName

/-- The resources of a template in an order in which every one comes behind those to which it was
found to refer. -/
def resourceOrder (e : Expander) (t : Template) : Except Graph.Cycle (List Text) :=
  e.graph.order (e.resourceNames t)

end Expander

end CloudTemplate
