import CloudTemplate.Console
import CloudTemplate.Graph.Traversal
import CloudTemplate.Reference

/-!
# Graphs, orders and references on a console

The tree of a graph shows each resource, how many others refer to it, and below it all ways along
the edges.  The table of an order numbers its resources and names what each refers to.  The table of
references has a row for each.
-/

namespace CloudTemplate.Console

open CloudTemplate.Graph (Branch)

mutual

/-- A way along the edges: a node is a member or an outsider, a way back is marked. -/
def branchTree (members : SortedSet Text) : Branch → Tree
  | .back name => .node (.styled "bold red" (name ++ " (cycle)")) []
  | .step name branches =>
    .node (.styled (if name ∈ members then "bold green" else "dim") name)
      (branchTrees members branches)

/-- Several ways along the edges. -/
def branchTrees (members : SortedSet Text) : List Branch → List Tree
  | [] => []
  | branch :: rest => branchTree members branch :: branchTrees members rest

end

/-- A resource and how many others refer to it. -/
def resourceLabel (g : Graph) (resource : Text) : Label :=
  let label := Label.styled "bold blue" resource
  match (g.sources resource).length with
  | 0 => label
  | n => label.append "dim italic" ("  (" ++ Number.natural n ++ " dependent(s))")

/-- Texts in increasing order, repetitions kept. -/
def sorted (texts : List Text) : List Text :=
  texts.mergeSort fun a b => a ≤ b

/-- The tree of a graph from the given resources on. -/
def graphTree (g : Graph) (resources : List Text) (title : Text) : Tree :=
  let members := SortedSet.ofList resources
  .node (.styled "bold white" title) <| (sorted resources).map fun resource =>
    .node (resourceLabel g resource) (branchTrees members (g.unfold resource))

/-- The rows of an order that begins with the given number. -/
def orderRows (g : Graph) (number : Nat) : List Text → List (List Text)
  | [] => []
  | resource :: rest =>
    [Number.natural number, clean resource, clean (Text.join ", " (g.targets resource))]
      :: orderRows g (number + 1) rest

/-- The table of an order. -/
def orderTable (g : Graph) (order : List Text) : Table where
  title := "Resource order"
  columns := [{ header := "#", style := "dim", side := .right },
    { header := "Resource", style := "cyan" }, { header := "Depends on", style := "green" }]
  rows := orderRows g 1 order

/-- The row of a reference. -/
def referenceRow (r : Reference) : List Text :=
  [clean (if r.location.isRoot then "<root>" else r.location.text),
    match r.attr with | none => Intrinsic.ref | some _ => Intrinsic.getAtt,
    clean r.target, clean (r.attr.getD "")]

/-- The table of references. -/
def referenceTable (references : List Reference) : Table where
  title := "References"
  columns := [{ header := "Path" }, { header := "Function", style := "dim" },
    { header := "Target", style := "cyan" }, { header := "Attribute", style := "green" }]
  rows := references.map referenceRow

end CloudTemplate.Console
