import Mathlib.Data.Set.Function
import CloudTemplate.Proofs.Graph.Listings
import CloudTemplate.Proofs.Graph.MarkedCycles

/-!
# The simple paths that a tree shows

A node of a tree has an address: the number of the child to go to, at every step from the root.  A
graph reads the same numbers as choices among the targets of a name, and so an address below a
resource spells a path along the edges (`Graph.namesAlong`).

In the tree of a graph a node that is not marked shows the path that its address spells.  The names
that have not been met go down from node to node (`Console.pathTree`), and the tree goes on to those
only.  So it shows simple paths and no others (`Console.reaches_of_at?`), and each of them at one
address (`Console.exists_address`).  The graph may have cycles and may lead to names that are not
among the resources.

## Main results

* `Graph.tree_shows_simple_paths`: the nodes below a resource that are not marked are in bijection
  with the simple paths that begin there, and each node has a child for each target of its name.
-/

namespace CloudTemplate

open CloudTemplate.Graph (Branch)

/-! ### Addresses in a tree -/

namespace Console

/-- The label at the root of a tree. -/
def Tree.label : Tree → Label
  | .node label _ => label

/-- The trees directly below the root of a tree. -/
def Tree.children : Tree → List Tree
  | .node _ children => children

/-- The node at an address, with all that is below it. -/
def Tree.at? (t : Tree) : List Nat → Option Tree
  | [] => some t
  | k :: rest => do
    let child ← t.children[k]?
    child.at? rest

/-- The root of a tree has the style of a cycle. -/
def Tree.IsMarked (t : Tree) : Prop :=
  t.label.style = "bold red"

instance (t : Tree) : Decidable t.IsMarked :=
  inferInstanceAs (Decidable (t.label.style = "bold red"))

/-- A node that is not marked stands at the address. -/
def Tree.ShowsAt (t : Tree) (address : List Nat) : Prop :=
  ∃ node, t.at? address = some node ∧ ¬ node.IsMarked

theorem Tree.at?_cons {t : Tree} {k : Nat} {child : Tree} (h : t.children[k]? = some child)
    (rest : List Nat) : t.at? (k :: rest) = child.at? rest := by
  rw [Tree.at?, h]
  rfl

theorem Tree.exists_child_of_at? {t node : Tree} {k : Nat} {rest : List Nat}
    (h : t.at? (k :: rest) = some node) :
    ∃ child, t.children[k]? = some child ∧ child.at? rest = some node :=
  Option.bind_eq_some_iff.mp h

/-- The label of a target below the node that shows a path. -/
def targetLabel (members : SortedSet Text) (path : List Text) (target : Text) : Label :=
  if path.contains target then .styled "bold red" (target ++ " (cycle)")
  else .styled (if target ∈ members then "bold green" else "dim") target

end Console

/-! ### Paths that addresses spell -/

namespace Graph

/-- The names on the way from a name, when each number of an address selects a target. -/
def namesAlong (g : Graph) (name : Text) : List Nat → List Text
  | [] => []
  | k :: rest =>
    match (g.targets name)[k]? with
    | none => []
    | some target => target :: g.namesAlong target rest

/-- The names follow one another along edges, and none of them comes twice. -/
structure IsSimplePath (g : Graph) (names : List Text) : Prop where
  chain : names.IsChain fun s t => g.has s t = true
  nodup : names.Nodup

variable {g : Graph} {name : Text}

theorem namesAlong_cons {k : Nat} {target : Text} (h : (g.targets name)[k]? = some target)
    (rest : List Nat) : g.namesAlong name (k :: rest) = target :: g.namesAlong target rest := by
  rw [namesAlong, h]

theorem isChain_namesAlong (g : Graph) (name : Text) (address : List Nat) :
    (name :: g.namesAlong name address).IsChain fun s t => g.has s t = true := by
  induction address generalizing name with
  | nil => exact .singleton name
  | cons k rest ih =>
    cases htarget : (g.targets name)[k]? with
    | none =>
      rw [namesAlong, htarget]
      exact .singleton name
    | some target =>
      rw [namesAlong_cons htarget]
      exact .cons_cons (mem_targets.mp (List.mem_of_getElem? htarget)) (ih target)

theorem nodup_targets (g : Graph) (name : Text) : (g.targets name).Nodup :=
  (g.increasing_targets name).imp Std.ne_of_lt

/-- Addresses that have not run out of targets spell different paths. -/
theorem namesAlong_injOn (g : Graph) (name : Text) :
    Set.InjOn (g.namesAlong name)
      {address | (g.namesAlong name address).length = address.length} := by
  intro a ha b hb heq
  rw [Set.mem_ofPred_eq] at ha hb
  induction a generalizing name b with
  | nil =>
    rw [← heq] at hb
    exact (List.eq_nil_of_length_eq_zero hb.symm).symm
  | cons k rest ih =>
    cases htarget : (g.targets name)[k]? with
    | none =>
      rw [namesAlong, htarget] at ha
      cases ha
    | some target =>
      rw [namesAlong_cons htarget] at ha heq
      cases b with
      | nil => cases heq
      | cons m others =>
        cases htarget' : (g.targets name)[m]? with
        | none =>
          rw [namesAlong, htarget'] at heq
          cases heq
        | some target' =>
          rw [namesAlong_cons htarget'] at hb heq
          obtain ⟨rfl, heq⟩ := List.cons.inj heq
          have hk : k = m := by
            obtain ⟨hlt, -⟩ := List.getElem?_eq_some_iff.mp htarget
            exact (List.getElem?_inj hlt (g.nodup_targets name)).mp (htarget.trans htarget'.symm)
          rw [hk, ih target (Nat.succ.inj ha) (Nat.succ.inj hb) heq]

end Graph

/-! ### Nodes of the tree of a graph -/

namespace Console

open CloudTemplate.Graph (namesAlong_cons)

variable {g : Graph} {members : SortedSet Text} {free : List Text} {name : Text}

/-- The node that shows a path up to `name`, when `free` holds the nodes that are not on it. -/
def pathTree (g : Graph) (members : SortedSet Text) (free : List Text) (name : Text)
    (label : Label) : Tree :=
  .node label (branchTrees members (g.branchesFrom free name))

/-- The node below it for a target. -/
def targetTree (g : Graph) (members : SortedSet Text) (free : List Text) (target : Text) : Tree :=
  if free.contains target then
    pathTree g members (free.erase target) target
      (.styled (if target ∈ members then "bold green" else "dim") target)
  else .node (.styled "bold red" (target ++ " (cycle)")) []

theorem targetTree_of_mem {target : Text} (h : target ∈ free) :
    targetTree g members free target = pathTree g members (free.erase target) target
      (.styled (if target ∈ members then "bold green" else "dim") target) :=
  if_pos (List.contains_iff_mem.mpr h)

theorem targetTree_of_notMem {target : Text} (h : target ∉ free) :
    targetTree g members free target = .node (.styled "bold red" (target ++ " (cycle)")) [] :=
  if_neg (mt List.contains_iff_mem.mp h)

theorem children_pathTree (label : Label) :
    (pathTree g members free name label).children =
      (g.targets name).map (targetTree g members free) := by
  rw [pathTree, Tree.children, branchTrees_eq_map, Graph.branchesFrom, List.map_map]
  refine List.map_congr_left fun target _ => ?_
  rw [Function.comp_apply]
  split
  · next hmem => rw [targetTree_of_mem hmem, branchTree, pathTree]
  · next hmem => rw [targetTree_of_notMem hmem, branchTree]

theorem getElem?_children_pathTree {label : Label} {k : Nat} {target : Text}
    (h : (g.targets name)[k]? = some target) :
    (pathTree g members free name label).children[k]? =
      some (targetTree g members free target) := by
  rw [children_pathTree, List.getElem?_map, h, Option.map_some]

theorem label_targetTree {path : List Text} {target : Text} (h : target ∈ free ↔ target ∉ path) :
    (targetTree g members free target).label = targetLabel members path target := by
  by_cases hfree : target ∈ free
  · rw [targetTree_of_mem hfree, targetLabel, if_neg (mt List.contains_iff_mem.mp (h.mp hfree))]
    rfl
  · have hpath : target ∈ path := not_not.mp (mt h.mpr hfree)
    rw [targetTree_of_notMem hfree, targetLabel, if_pos (List.contains_iff_mem.mpr hpath)]
    rfl

/-- A node at an address below `name` shows the path that the address spells, and this path goes
through free names, each of them once. -/
structure Reaches (g : Graph) (members : SortedSet Text) (free : List Text) (name : Text)
    (address : List Nat) (node : Tree) : Prop where
  notMarked : ¬ node.IsMarked
  length : (g.namesAlong name address).length = address.length
  nodup : (g.namesAlong name address).Nodup
  subset : ∀ s ∈ g.namesAlong name address, s ∈ free
  shape : ∃ left label, (∀ s, s ∈ left ↔ s ∈ free ∧ s ∉ g.namesAlong name address) ∧
    node = pathTree g members left ((g.namesAlong name address).getLastD name) label

/-- What is reached from a free target is reached from the name before it. -/
theorem Reaches.cons {k : Nat} {rest : List Nat} {target : Text} {node : Tree}
    (hfree : free.Nodup) (htarget : (g.targets name)[k]? = some target) (hmem : target ∈ free)
    (h : Reaches g members (free.erase target) target rest node) :
    Reaches g members free name (k :: rest) node := by
  have hnames := namesAlong_cons htarget rest
  have herase : ∀ s, s ∈ free.erase target ↔ s ≠ target ∧ s ∈ free := fun s =>
    hfree.mem_erase_iff
  refine ⟨h.notMarked, ?_, ?_, ?_, ?_⟩
  · rw [hnames, List.length_cons, h.length, List.length_cons]
  · rw [hnames]
    exact List.nodup_cons.mpr ⟨fun hback => hfree.not_mem_erase (h.subset _ hback), h.nodup⟩
  · rw [hnames]
    exact List.forall_mem_cons.mpr ⟨hmem, fun s hs => List.mem_of_mem_erase (h.subset s hs)⟩
  · obtain ⟨left, label, hleft, rfl⟩ := h.shape
    refine ⟨left, label, fun s => ?_, ?_⟩
    · rw [hleft, herase, hnames, List.mem_cons, not_or]
      tauto
    · rw [hnames, List.getLastD_cons]

/-- **A node is a mark with nothing below it, or it shows a simple path.**  The induction is on the
address; at every step the target leaves the names that are free. -/
theorem reaches_of_at? {label : Label} {address : List Nat} {node : Tree} (hfree : free.Nodup)
    (hlabel : label.style ≠ "bold red")
    (h : (pathTree g members free name label).at? address = some node) :
    (node.IsMarked ∧ node.children = []) ∨ Reaches g members free name address node := by
  induction address generalizing free name label with
  | nil =>
    obtain rfl := Option.some.inj h
    refine .inr ⟨hlabel, rfl, .nil, List.forall_mem_nil _, free, label, fun s => ?_, rfl⟩
    simp [Graph.namesAlong]
  | cons k rest ih =>
    obtain ⟨child, hchild, hrest⟩ := Tree.exists_child_of_at? h
    rw [children_pathTree, List.getElem?_map] at hchild
    obtain ⟨target, htarget, rfl⟩ := Option.map_eq_some_iff.mp hchild
    by_cases hmem : target ∈ free
    · rw [targetTree_of_mem hmem] at hrest
      exact (ih (hfree.erase target) (style_step_ne target) hrest).imp_right
        (Reaches.cons hfree htarget hmem)
    · rw [targetTree_of_notMem hmem] at hrest
      cases rest with
      | nil =>
        obtain rfl := Option.some.inj hrest
        exact .inl ⟨rfl, rfl⟩
      | cons m others =>
        obtain ⟨_, hnone, -⟩ := Tree.exists_child_of_at? hrest
        cases hnone

/-- **Every simple path is shown.**  It goes from the name through free names. -/
theorem exists_address {label : Label} (hlabel : label.style ≠ "bold red") {names : List Text}
    (hchain : (name :: names).IsChain fun s t => g.has s t = true) (hnodup : names.Nodup)
    (hfree : ∀ s ∈ names, s ∈ free) :
    ∃ address, (pathTree g members free name label).ShowsAt address ∧
      g.namesAlong name address = names := by
  induction names generalizing free name label with
  | nil => exact ⟨[], ⟨_, rfl, hlabel⟩, rfl⟩
  | cons next rest ih =>
    obtain ⟨hedge, hrest⟩ := List.isChain_cons_cons.mp hchain
    obtain ⟨hnext, hnodup⟩ := List.nodup_cons.mp hnodup
    obtain ⟨hmem, hothers⟩ := List.forall_mem_cons.mp hfree
    obtain ⟨k, hk⟩ := List.mem_iff_getElem?.mp (Graph.mem_targets.mpr hedge)
    have hleft : ∀ s ∈ rest, s ∈ free.erase next := fun s hs =>
      (List.mem_erase_of_ne (ne_of_mem_of_not_mem hs hnext)).mpr (hothers s hs)
    obtain ⟨address, ⟨node, hat, hnode⟩, hnames⟩ := ih (style_step_ne next) hrest hnodup hleft
    refine ⟨k :: address, ⟨node, ?_, hnode⟩, by rw [namesAlong_cons hk, hnames]⟩
    rw [Tree.at?_cons (getElem?_children_pathTree hk), targetTree_of_mem hmem, hat]

/-! ### The resources at the top -/

theorem children_graphTree (g : Graph) (resources : List Text) (title : Text) :
    (graphTree g resources title).children = (sorted resources).map fun resource =>
      pathTree g (.ofList resources) (g.nodes.toList.erase resource) resource
        (resourceLabel g resource) := rfl

/-- An address that begins with the number of a resource goes on in the tree of that resource. -/
theorem at?_graphTree {resources : List Text} {i : Nat} {resource : Text}
    (h : (sorted resources)[i]? = some resource) (title : Text) (address : List Nat) :
    (graphTree g resources title).at? (i :: address) =
      (pathTree g (.ofList resources) (g.nodes.toList.erase resource) resource
        (resourceLabel g resource)).at? address := by
  refine Tree.at?_cons ?_ address
  rw [children_graphTree, List.getElem?_map, h, Option.map_some]

theorem isControl_of_isDigit {c : Char} (h : c.isDigit = true) : isControl (.char c) = false := by
  have hne : ∀ control : Char, control.isDigit = false → CodePoint.char c ≠ .char control := by
    rintro control hcontrol heq
    rw [CodePoint.char.inj heq, hcontrol] at h
    cases h
  simp [isControl, hne '\x07' rfl, hne '\x08' rfl, hne '\x0b' rfl, hne '\x0c' rfl, hne '\r' rfl]

theorem clean_natural (n : Nat) : clean (Number.natural n) = Number.natural n := by
  refine List.filter_eq_self.mpr fun c hc => ?_
  obtain ⟨d, hd, rfl⟩ := List.mem_map.mp hc
  rw [Number.natural, String.toList_ofList] at hd
  rw [isControl_of_isDigit (Nat.isDigit_of_mem_toDigits (by decide) (by decide) hd), Bool.not_false]

theorem clean_append (a b : Text) : clean (a ++ b) = clean a ++ clean b := List.filter_append ..

/-- The label of a resource says how many names refer to it, unless there are none. -/
theorem text_resourceLabel (g : Graph) (resource : Text) :
    (resourceLabel g resource).text = clean resource ++
      if g.sources resource = [] then []
      else "  (" ++ Number.natural (g.sources resource).length ++ " dependent(s))" := by
  have hcount (count : String) (h : clean count = count) :
      clean ("  (" ++ count ++ " dependent(s))") = ("  (" ++ count ++ " dependent(s))" : Text) := by
    have hbefore : clean "  (" = "  (" := by decide
    have hafter : clean " dependent(s))" = " dependent(s))" := by decide
    rw [clean_append, clean_append, hbefore, h, hafter]
  rw [resourceLabel]
  split
  · next hnone =>
    rw [if_pos (List.eq_nil_of_length_eq_zero hnone), List.append_nil]
    rfl
  · next hsome =>
    rw [if_neg fun hnil => hsome (by rw [hnil, List.length_nil]), Text.ofString_append,
      Text.ofString_append]
    exact congrArg (clean resource ++ ·) (hcount _ (clean_natural _))

end Console

namespace Graph

open CloudTemplate.Console

variable {g : Graph} {resources : List Text} {i : Nat} {resource : Text}

/-- The names on a simple path are nodes of the graph, each of them once. -/
theorem IsSimplePath.length_le {names : List Text} (h : g.IsSimplePath (resource :: names)) :
    names.length ≤ g.nodes.size :=
  (List.subperm_of_subset (List.nodup_cons.mp h.nodup).2 (mem_nodes_of_isChain h.chain)).length_le

/-- What is reached below a resource shows a simple path that begins there. -/
theorem isSimplePath_of_reaches {members : SortedSet Text} {address : List Nat} {node : Tree}
    (h : Reaches g members (g.nodes.toList.erase resource) resource address node) :
    g.IsSimplePath (resource :: g.namesAlong resource address) where
  chain := g.isChain_namesAlong resource address
  nodup := List.nodup_cons.mpr
    ⟨fun hback => nodup_nodes.not_mem_erase (h.subset resource hback), h.nodup⟩

theorem reaches_of_at?_graphTree {title : Text} {address : List Nat} {node : Tree}
    (hi : (sorted resources)[i]? = some resource)
    (h : (graphTree g resources title).at? (i :: address) = some node) :
    (node.IsMarked ∧ node.children = []) ∨
      Reaches g (.ofList resources) (g.nodes.toList.erase resource) resource address node :=
  reaches_of_at? (nodup_nodes.erase resource) (style_resourceLabel_ne g resource)
    (at?_graphTree hi title address ▸ h)

/-- **The nodes below a resource and the simple paths that begin there.** -/
theorem bijOn_namesAlong (title : Text) (hi : (sorted resources)[i]? = some resource) :
    Set.BijOn (g.namesAlong resource)
      {address | address ≠ [] ∧ (graphTree g resources title).ShowsAt (i :: address)}
      {names | names ≠ [] ∧ g.IsSimplePath (resource :: names)} := by
  have hreaches : ∀ address, (graphTree g resources title).ShowsAt (i :: address) →
      ∃ node, Reaches g (.ofList resources) (g.nodes.toList.erase resource) resource address
        node := by
    rintro address ⟨node, hat, hnode⟩
    exact ⟨node, (reaches_of_at?_graphTree hi hat).resolve_left fun hmark => hnode hmark.1⟩
  refine ⟨?_, ?_, ?_⟩
  · rintro address ⟨hne, hshows⟩
    obtain ⟨node, hnode⟩ := hreaches address hshows
    refine ⟨fun hnil => hne ?_, isSimplePath_of_reaches hnode⟩
    exact List.eq_nil_of_length_eq_zero (hnode.length.symm.trans (by rw [hnil, List.length_nil]))
  · refine (g.namesAlong_injOn resource).mono ?_
    rintro address ⟨-, hshows⟩
    obtain ⟨node, hnode⟩ := hreaches address hshows
    exact hnode.length
  · rintro names ⟨hne, hpath⟩
    obtain ⟨hnot, hnodup⟩ := List.nodup_cons.mp hpath.nodup
    have hfree : ∀ s ∈ names, s ∈ g.nodes.toList.erase resource := fun s hs =>
      (List.mem_erase_of_ne (ne_of_mem_of_not_mem hs hnot)).mpr
        (mem_nodes_of_isChain hpath.chain s hs)
    obtain ⟨address, hshows, rfl⟩ :=
      exists_address (style_resourceLabel_ne g resource) hpath.chain hnodup hfree
    rw [Tree.ShowsAt, ← at?_graphTree hi title address] at hshows
    exact ⟨address, ⟨fun hnil => hne (by rw [hnil, namesAlong]), hshows⟩, rfl⟩

/-- Below a node that shows a path there is a child for each target of the last name. -/
theorem labels_of_reaches {members : SortedSet Text} {address : List Nat} {node : Tree}
    (h : Reaches g members (g.nodes.toList.erase resource) resource address node) :
    node.children.map Tree.label =
      (g.targets ((g.namesAlong resource address).getLastD resource)).map
        (targetLabel members (resource :: g.namesAlong resource address)) := by
  obtain ⟨left, label, hleft, rfl⟩ := h.shape
  rw [children_pathTree, List.map_map]
  refine List.map_congr_left fun target htarget => label_targetTree ?_
  rw [hleft, nodup_nodes.mem_erase_iff, List.mem_cons, not_or]
  have hnode : target ∈ g.nodes.toList := target_mem_nodes (mem_targets.mp htarget)
  exact and_congr_left fun _ => and_iff_left hnode

/-- **The tree shows exactly the simple paths.**  At the top of the tree of a graph stand the given
resources in increasing order, each with the number of names that refer to it unless there are none.
Below each of them the nodes that are not marked are in bijection with the simple paths that begin
at the resource: the address of a node spells its path, which is no longer than the graph has nodes.
Each such node has one child for each target of the last name on its path, in increasing order; a
target that is on the path already is marked as a cycle, and has nothing below it. -/
theorem tree_shows_simple_paths (g : Graph) (resources : List Text) (title : Text) :
    (sorted resources).Perm resources ∧ (sorted resources).Pairwise (· ≤ ·) ∧
    (graphTree g resources title).children.map Tree.label =
      (sorted resources).map (resourceLabel g) ∧
    (∀ resource, (g.sources resource).Nodup ∧
      (∀ s, s ∈ g.sources resource ↔ g.has s resource = true) ∧
      (resourceLabel g resource).text = clean resource ++
        if g.sources resource = [] then []
        else "  (" ++ Number.natural (g.sources resource).length ++ " dependent(s))") ∧
    (∀ name, (g.targets name).Pairwise (· < ·) ∧
      ∀ t, t ∈ g.targets name ↔ g.has name t = true) ∧
    ∀ (i : Nat) (resource : Text), (sorted resources)[i]? = some resource →
      Set.BijOn (g.namesAlong resource)
        {address | address ≠ [] ∧ (graphTree g resources title).ShowsAt (i :: address)}
        {names | names ≠ [] ∧ g.IsSimplePath (resource :: names)} ∧
      ∀ address node, (graphTree g resources title).at? (i :: address) = some node →
        if node.IsMarked then node.children = []
        else
          address.length ≤ g.nodes.size ∧
          node.children.map Tree.label =
            (g.targets ((g.namesAlong resource address).getLastD resource)).map
              (targetLabel (.ofList resources) (resource :: g.namesAlong resource address)) := by
  refine ⟨List.mergeSort_perm .., Text.pairwise_mergeSort resources, ?_, fun resource => ?_,
    fun name => ⟨g.increasing_targets name, fun _ => mem_targets⟩, fun i resource hi => ?_⟩
  · rw [children_graphTree, List.map_map]
    rfl
  · exact ⟨(g.increasing_sources resource).imp Std.ne_of_lt, fun _ => mem_sources,
      text_resourceLabel g resource⟩
  · refine ⟨bijOn_namesAlong title hi, fun address node hat => ?_⟩
    rcases reaches_of_at?_graphTree hi hat with ⟨hmark, hnone⟩ | hnode
    · rwa [if_pos hmark]
    · rw [if_neg hnode.notMarked]
      exact ⟨hnode.length ▸ (isSimplePath_of_reaches hnode).length_le, labels_of_reaches hnode⟩

end Graph

end CloudTemplate
