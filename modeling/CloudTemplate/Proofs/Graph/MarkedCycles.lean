import CloudTemplate.Console.Listing
import CloudTemplate.Proofs.Graph.TargetsFirst

/-!
# Marked cycles in the tree of a graph

The tree of a graph and the order of its members come upon cycles in two ways.  The tree follows
every way along the edges until it would meet one of its own names, and marks the leaf at which that
happens.  The search for an order never enters a name twice, and fails when it meets one that is
still open.

If there is an order, then the place in it falls with every step along an edge, so that no way
closes a cycle (`Graph.not_closesCycle_branchesFrom`).  If there is none, the search has found a
cycle, and the tree shows it below the name at which it begins
(`Graph.exists_closesCycle_branchesFrom`).

## Main results

* `Graph.tree_marks_cycle_iff_order_fails`: the tree has a marked leaf if and only if there is no
  order, as long as no edge leaves the list of resources.
-/

namespace CloudTemplate

open CloudTemplate.Graph (Branch)

/-- A way below a branch closes a cycle: it comes back to one of its own names. -/
inductive Graph.Branch.ClosesCycle : Branch → Prop
  | back (name : Text) : (Branch.back name).ClosesCycle
  | step {name : Text} {branches : List Branch} {branch : Branch} (hmem : branch ∈ branches)
      (h : branch.ClosesCycle) : (Branch.step name branches).ClosesCycle

namespace Console

/-! ### Leaves of a tree -/

mutual

/-- The labels below which nothing stands. -/
def Tree.leaves : Tree → List Label
  | .node label [] => [label]
  | .node _ (child :: children) => child.leaves ++ leavesOf children

/-- The labels below which nothing stands, in several trees. -/
def leavesOf : List Tree → List Label
  | [] => []
  | t :: rest => t.leaves ++ leavesOf rest

end

/-- A leaf of the tree has the style of a cycle. -/
def Tree.MarksCycle (t : Tree) : Prop :=
  ∃ leaf ∈ t.leaves, leaf.style = "bold red"

instance (t : Tree) : Decidable t.MarksCycle :=
  inferInstanceAs (Decidable (∃ leaf ∈ t.leaves, leaf.style = "bold red"))

theorem mem_leavesOf {leaf : Label} {trees : List Tree} :
    leaf ∈ leavesOf trees ↔ ∃ t ∈ trees, leaf ∈ t.leaves := by
  induction trees with
  | nil => simp [leavesOf]
  | cons t rest ih => simp [leavesOf, ih]

/-- A node that is not marked itself has a mark below it or none at all. -/
theorem marksCycle_node_iff {label : Label} (h : label.style ≠ "bold red") {children : List Tree} :
    (Tree.node label children).MarksCycle ↔ ∃ child ∈ children, child.MarksCycle := by
  cases children with
  | nil => simp [Tree.MarksCycle, Tree.leaves, h]
  | cons child rest =>
    have hleaves : (Tree.node label (child :: rest)).leaves = leavesOf (child :: rest) := by
      rw [Tree.leaves, leavesOf]
    constructor
    · rintro ⟨leaf, hleaf, hstyle⟩
      rw [hleaves, mem_leavesOf] at hleaf
      obtain ⟨t, ht, hleaf⟩ := hleaf
      exact ⟨t, ht, leaf, hleaf, hstyle⟩
    · rintro ⟨t, ht, leaf, hleaf, hstyle⟩
      exact ⟨leaf, hleaves ▸ mem_leavesOf.mpr ⟨t, ht, hleaf⟩, hstyle⟩

/-! ### Marks and cycles -/

variable {members : SortedSet Text}

theorem style_step_ne (name : Text) :
    (Label.styled (if name ∈ members then "bold green" else "dim") name).style ≠ "bold red" := by
  rw [Label.styled]
  split
  · exact (by decide : "bold green" ≠ "bold red")
  · exact (by decide : "dim" ≠ "bold red")

theorem branchTrees_eq_map (branches : List Branch) :
    branchTrees members branches = branches.map (branchTree members) := by
  induction branches with
  | nil => rw [branchTrees, List.map_nil]
  | cons branch rest ih => rw [branchTrees, ih, List.map_cons]

theorem marksCycle_branchTree_step_iff {name : Text} {branches : List Branch} :
    (branchTree members (.step name branches)).MarksCycle ↔
      ∃ branch ∈ branches, (branchTree members branch).MarksCycle := by
  rw [branchTree, marksCycle_node_iff (style_step_ne name), branchTrees_eq_map]
  simp only [List.mem_map, exists_exists_and_eq_and]

mutual

/-- A mark shows a cycle. -/
theorem closesCycle_of_marksCycle :
    ∀ branch : Branch, (branchTree members branch).MarksCycle → branch.ClosesCycle
  | .back name, _ => .back name
  | .step _ branches, h => by
    obtain ⟨branch, hmem, hback⟩ :=
      exists_closesCycle_of_marksCycle branches (marksCycle_branchTree_step_iff.mp h)
    exact .step hmem hback

/-- A mark below one of several branches shows a cycle. -/
theorem exists_closesCycle_of_marksCycle :
    ∀ branches : List Branch, (∃ branch ∈ branches, (branchTree members branch).MarksCycle) →
      ∃ branch ∈ branches, branch.ClosesCycle
  | [], h => by simp at h
  | branch :: rest, h => by
    rw [List.exists_mem_cons_iff] at h ⊢
    exact h.imp (closesCycle_of_marksCycle branch) (exists_closesCycle_of_marksCycle rest)

end

theorem marksCycle_branchTree_iff {branch : Branch} :
    (branchTree members branch).MarksCycle ↔ branch.ClosesCycle := by
  refine ⟨closesCycle_of_marksCycle branch, fun h => ?_⟩
  induction h with
  | back name =>
    rw [branchTree]
    exact ⟨_, List.mem_singleton_self _, rfl⟩
  | step hmem _ ih => exact marksCycle_branchTree_step_iff.mpr ⟨_, hmem, ih⟩

theorem style_resourceLabel_ne (g : Graph) (resource : Text) :
    (resourceLabel g resource).style ≠ "bold red" := by
  rw [resourceLabel]
  split
  · exact (by decide : "bold blue" ≠ "bold red")
  · exact (by decide : "bold blue" ≠ "bold red")

/-- The tree of a graph has a mark exactly if some way from a resource closes a cycle. -/
theorem marksCycle_graphTree_iff (g : Graph) (resources : List Text) (title : Text) :
    (graphTree g resources title).MarksCycle ↔
      ∃ resource ∈ resources, ∃ branch ∈ g.unfold resource, branch.ClosesCycle := by
  have hwhite : (Label.styled "bold white" title).style ≠ "bold red" :=
    (by decide : "bold white" ≠ "bold red")
  rw [graphTree, marksCycle_node_iff hwhite]
  simp only [List.mem_map, exists_exists_and_eq_and, sorted, List.mem_mergeSort,
    marksCycle_node_iff (style_resourceLabel_ne g _), branchTrees_eq_map, marksCycle_branchTree_iff]

end Console

namespace Graph

variable {g : Graph} {free : List Text} {name : Text}

theorem mem_branchesFrom {branch : Branch} :
    branch ∈ g.branchesFrom free name ↔ ∃ target, g.has name target = true ∧
      branch = if target ∈ free then .step target (g.branchesFrom (free.erase target) target)
        else .back target := by
  rw [branchesFrom, List.mem_map]
  simp only [mem_targets, eq_comm]

/-- **No way closes a cycle where every edge leads downwards.**  Every name that is not free stands
at least as high as the one at which the way has arrived, and the next one stands lower. -/
theorem not_closesCycle_branchesFrom {height : Text → Nat}
    (hfalls : ∀ s t, g.has s t = true → height t < height s)
    (hfree : ∀ s t, g.has s t = true → t ∉ free → height name ≤ height t) :
    ∀ branch ∈ g.branchesFrom free name, ¬ branch.ClosesCycle := by
  induction free, name using Graph.branchesFrom.induct with
  | case1 free name ih =>
    intro branch hbranch hback
    obtain ⟨target, hedge, rfl⟩ := mem_branchesFrom.mp hbranch
    have hlower : height target < height name := hfalls name target hedge
    by_cases htarget : target ∈ free
    · rw [if_pos htarget] at hback
      cases hback with
      | step hmem hinner =>
        refine ih target htarget (fun s t hst ht => ?_) _ hmem hinner
        by_cases heq : t = target
        · exact heq ▸ Nat.le_refl _
        · have hnot : t ∉ free := fun h => ht ((List.mem_erase_of_ne heq).mpr h)
          exact Nat.le_of_lt (Nat.lt_of_lt_of_le hlower (hfree s t hst hnot))
    · exact Nat.not_lt_of_le (hfree name target hedge htarget) hlower

/-- **A cycle is shown.**  Its path goes from the name through free names, each of them once, to one
that is not free. -/
theorem exists_closesCycle_branchesFrom {inner : List Text} {last : Text}
    (hchain : (name :: inner ++ [last]).IsChain fun s t => g.has s t = true)
    (hnodup : inner.Nodup) (hinner : ∀ s ∈ inner, s ∈ free) (hlast : last ∉ free) :
    ∃ branch ∈ g.branchesFrom free name, branch.ClosesCycle := by
  induction inner generalizing free name with
  | nil =>
    have hedge : g.has name last = true := List.isChain_pair.mp (by simpa using hchain)
    exact ⟨.back last, mem_branchesFrom.mpr ⟨last, hedge, (if_neg hlast).symm⟩, .back last⟩
  | cons next rest ih =>
    obtain ⟨hedge, hrest⟩ := List.isChain_cons_cons.mp hchain
    obtain ⟨hnext, hnodup⟩ := List.nodup_cons.mp hnodup
    obtain ⟨hfree, hothers⟩ := List.forall_mem_cons.mp hinner
    have hleft : ∀ s ∈ rest, s ∈ free.erase next := fun s hs =>
      (List.mem_erase_of_ne (ne_of_mem_of_not_mem hs hnext)).mpr (hothers s hs)
    obtain ⟨branch, hbranch, hback⟩ :=
      ih hrest hnodup hleft fun h => hlast (List.mem_of_mem_erase h)
    refine ⟨.step next (g.branchesFrom (free.erase next) next), ?_, .step hbranch hback⟩
    exact mem_branchesFrom.mpr ⟨next, hedge, (if_pos hfree).symm⟩

theorem target_mem_nodes {s t : Text} (h : g.has s t = true) : t ∈ g.nodes :=
  SortedSet.mem_insertAll.mpr (.inr (List.mem_map.mpr ⟨_, has_iff.mp h, rfl⟩))

/-- Every name but the first of a path along edges is a node. -/
theorem mem_nodes_of_isChain {names : List Text}
    (h : (name :: names).IsChain fun s t => g.has s t = true) : ∀ t ∈ names, t ∈ g.nodes := by
  induction names generalizing name with
  | nil => simp
  | cons next rest ih =>
    obtain ⟨hedge, hrest⟩ := List.isChain_cons_cons.mp h
    exact List.forall_mem_cons.mpr ⟨target_mem_nodes hedge, ih hrest⟩

theorem nodup_nodes : g.nodes.toList.Nodup :=
  g.nodes.increasing.imp Std.ne_of_lt

/-- **The tree and the order agree on cycles.**  If a list of resources holds both ends of every
edge, then the tree of the graph from these resources on has a leaf in the style of a cycle if and
only if there is no order in which targets come first. -/
theorem tree_marks_cycle_iff_order_fails (g : Graph) (resources : List Text) (title : Text)
    (hinner : ∀ s t, g.has s t = true → s ∈ resources ∧ t ∈ resources) :
    (Console.graphTree g resources title).MarksCycle ↔
      ∃ cycle, g.order resources = .error cycle := by
  rw [Console.marksCycle_graphTree_iff]
  constructor
  · rintro ⟨resource, -, branch, hbranch, hback⟩
    cases horder : g.order resources with
    | error cycle => exact ⟨cycle, rfl⟩
    | ok order =>
      have hfalls : ∀ s t, g.has s t = true → order.idxOf t < order.idxOf s := fun s t hedge =>
        idxOf_lt_of_order horder (hinner s t hedge).1 (hinner s t hedge).2 hedge
      refine absurd hback (not_closesCycle_branchesFrom hfalls (fun s t hedge ht => ?_) _ hbranch)
      have heq : t = resource := by
        by_contra hne
        exact ht ((List.mem_erase_of_ne hne).mpr (target_mem_nodes hedge))
      exact heq ▸ Nat.le_refl _
  · rintro ⟨cycle, horder⟩
    obtain ⟨inner, hpath, hway, hchain⟩ := isSimpleIn_of_order horder
    obtain ⟨hnot, hnodup⟩ := List.nodup_cons.mp hway.nodup
    rw [hpath] at hchain
    have hresource : cycle.resource ∈ resources :=
      SortedSet.mem_ofList.mp (hway.subset _ List.mem_cons_self)
    refine ⟨cycle.resource, hresource, exists_closesCycle_branchesFrom hchain hnodup ?_ ?_⟩
    · intro s hs
      have hnode : s ∈ g.nodes := mem_nodes_of_isChain hchain s (List.mem_append_left _ hs)
      exact (List.mem_erase_of_ne (ne_of_mem_of_not_mem hs hnot)).mpr hnode
    · exact nodup_nodes.not_mem_erase

/-- A way leads to two names that refer to each other, one of the resources is named twice, and the
cycle does not begin at the first of them. -/
theorem tree_marks_cycle_of_mutual_references :
    let edges : List Edge := [⟨"A", "B"⟩, ⟨"B", "C"⟩, ⟨"C", "B"⟩, ⟨"A", "D"⟩]
    let g := Graph.empty.insertAll edges
    let resources : List Text := ["C", "D", "A", "B", "A"]
    (∀ s t, g.has s t = true → s ∈ resources ∧ t ∈ resources) ∧
      g.order resources = .error ⟨"B", ["B", "C", "B"]⟩ ∧
      (Console.graphTree g resources "Resources").MarksCycle := by
  intro edges g resources
  have hedges : ∀ edge ∈ edges, edge.source ∈ resources ∧ edge.target ∈ resources := by decide
  have hinner : ∀ s t, g.has s t = true → s ∈ resources ∧ t ∈ resources := by
    intro s t hedge
    rcases has_insertAll.mp hedge with hempty | hmem
    · cases has_iff.mp hempty
    · exact hedges _ hmem
  have horder : g.order resources = .error ⟨"B", ["B", "C", "B"]⟩ := by cbv
  exact ⟨hinner, horder, (tree_marks_cycle_iff_order_fails g resources _ hinner).mpr ⟨_, horder⟩⟩

end Graph

end CloudTemplate
