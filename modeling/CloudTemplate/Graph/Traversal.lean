import CloudTemplate.Graph

/-!
# Going along the edges of a graph

`Graph.order` lists the members of a list so that every member comes after the members to which it
refers.  The members are visited in increasing order, each one behind its targets.  A member that is
met again on the path that leads to it closes a cycle, and then there is no such order.

`Graph.unfold` shows below a resource all the ways that lead from it along the edges.  A way ends
where it would come back to one of its own nodes; the node at which that happens is shown as a leaf
of its own kind.

Both carry the nodes that are not yet on the path.  One of them leaves with every step down, so the
search ends and the tree is finite.
-/

namespace CloudTemplate.Graph

/-! ### Orders in which targets come first -/

/-- A cycle: its path begins and ends at `resource`. -/
structure Cycle where
  resource : Text
  path : List Text
  deriving DecidableEq, Repr

namespace Cycle

/-- The cycle in words, without its path. -/
def message (cycle : Cycle) : Text :=
  "circular dependency detected involving resource: " ++ cycle.resource

/-- The cycle that is closed when the end of a path refers to one of its members. -/
def close (path : List Text) (resource : Text) : Cycle :=
  ⟨resource, path.dropWhile (· ≠ resource) ++ [resource]⟩

end Cycle

/-- List a resource behind its targets.  Here `path` leads to the resource, `free` holds the members
that are not on it, and `done` is the list so far. -/
def visit (g : Graph) (members : SortedSet Text) (free path done : List Text)
    (resource : Text) : Except Cycle (List Text) :=
  if resource ∈ done then .ok done
  else if resource ∈ free then do
    let targets := (g.targets resource).filter (· ∈ members)
    let done ← targets.foldlM (g.visit members (free.erase resource) (path ++ [resource])) done
    return done ++ [resource]
  else .error (.close path resource)
termination_by free.length
decreasing_by exact length_erase_lt (by assumption)

/-- The members of a list, each behind those to which it refers. -/
def order (g : Graph) (resources : List Text) : Except Cycle (List Text) :=
  let members := SortedSet.ofList resources
  members.toList.foldlM (g.visit members members.toList []) []

/-! ### The paths of a graph as a tree -/

/-- A node of the tree. -/
inductive Branch where
  /-- A step to a new node, and the ways that lead on from it. -/
  | step (name : Text) (branches : List Branch)
  /-- A step back to a node on the way. -/
  | back (name : Text)
  deriving Inhabited

/-- The ways that lead on from `name`, when `free` holds the nodes that are not on the way. -/
def branchesFrom (g : Graph) (free : List Text) (name : Text) : List Branch :=
  (g.targets name).map fun target =>
    if target ∈ free then .step target (g.branchesFrom (free.erase target) target)
    else .back target
termination_by free.length
decreasing_by exact length_erase_lt (by assumption)

/-- The ways that lead on from a resource. -/
def unfold (g : Graph) (resource : Text) : List Branch :=
  g.branchesFrom (g.nodes.toList.erase resource) resource

end CloudTemplate.Graph
