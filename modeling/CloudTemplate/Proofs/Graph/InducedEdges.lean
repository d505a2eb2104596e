import CloudTemplate.Graph.Traversal
import CloudTemplate.Proofs.Graph.Histories
import CloudTemplate.Proofs.Graph.Listings

/-!
# What an order depends on

The search of `Graph.order` takes the members of a list in increasing order, and at each of them the
targets that are members, again in increasing order.  Increasing lists are determined by what is in
them, so nothing but the set of members and the edges between them has an effect on the search, at
any depth: every visit gives the same list, or closes the same cycle (`Graph.visit_congr`).

How the edges came to be there makes no difference either.  The edges of an index are those of a
set, so indices of different histories can be compared by the edges that they have.

## Main results

* `Graph.order_congr`: graphs with the same edges between the members of a list have the same order.
* `Graph.order_depends_on_induced_edges`: the same for indices after any two histories.
-/

namespace CloudTemplate.Graph

variable {g h : Graph}

/-- Visits one after the other depend on no more than each of the visits does. -/
theorem foldlM_visits_congr {visit visit' : List Text → Text → Except Cycle (List Text)}
    {names : List Text} (hvisit : ∀ done, ∀ s ∈ names, visit done s = visit' done s)
    (done : List Text) : names.foldlM visit done = names.foldlM visit' done := by
  induction names generalizing done with
  | nil => rfl
  | cons s rest ih =>
    rw [List.foldlM_cons, List.foldlM_cons, hvisit done s List.mem_cons_self]
    exact bind_congr fun next => ih (fun d t ht => hvisit d t (List.mem_cons_of_mem s ht)) next

/-- **A visit** of a member does the same in graphs with the same edges between members.  The
induction follows the search, which goes on to members only. -/
theorem visit_congr {members : SortedSet Text}
    (hedges : ∀ s ∈ members, ∀ t ∈ members, g.has s t = h.has s t)
    {free path done : List Text} {resource : Text} (hmem : resource ∈ members) :
    g.visit members free path done resource = h.visit members free path done resource := by
  induction free, path, done, resource using Graph.visit.induct g members with
  | case1 free path done resource hlisted =>
    rw [visit, visit, if_pos hlisted, if_pos hlisted]
  | case2 free path done resource hlisted hin ih =>
    have hfold : ((g.targets resource).filter (· ∈ members)).foldlM
          (g.visit members (free.erase resource) (path ++ [resource])) done =
        ((h.targets resource).filter (· ∈ members)).foldlM
          (h.visit members (free.erase resource) (path ++ [resource])) done := by
      rw [← filter_targets_congr (hedges resource hmem)]
      exact foldlM_visits_congr
        (fun d t ht => ih d t (of_decide_eq_true (List.mem_filter.mp ht).2)) done
    rw [visit, visit, if_neg hlisted, if_neg hlisted, if_pos hin, if_pos hin]
    exact congrArg (· >>= _) hfold
  | case3 free path done resource hlisted hin =>
    rw [visit, visit, if_neg hlisted, if_neg hlisted, if_neg hin, if_neg hin]

/-- Lists with the same members have the same order in graphs with the same edges between
members. -/
theorem order_congr {resources others : List Text} (hmembers : ∀ s, s ∈ resources ↔ s ∈ others)
    (hedges : ∀ s ∈ resources, ∀ t ∈ resources, g.has s t = h.has s t) :
    g.order resources = h.order others := by
  have hset : SortedSet.ofList resources = SortedSet.ofList others :=
    SortedSet.ofList_congr hmembers
  rw [order, order, ← hset]
  refine foldlM_visits_congr (fun done s hs => visit_congr (fun a ha b hb => ?_) hs) []
  exact hedges a (SortedSet.mem_ofList.mp ha) b (SortedSet.mem_ofList.mp hb)

/-- **An order depends on the edges between members only.**  Take two indices, each after a history
of its own, and two lists with the same members.  If the indices have the same edges between
members, they give the same order, or report the same cycle at the same resource.  It does not
matter how the edges were entered, how often and in which order the lists name their members, and
which edges lead to or come from other names. -/
theorem order_depends_on_induced_edges {ι κ : Type} [DecidableEq ι] [DecidableEq κ]
    (history : List (Step ι)) (name : ι) (history' : List (Step κ)) (name' : κ)
    {resources others : List Text} (hmembers : ∀ s, s ∈ resources ↔ s ∈ others)
    (hedges : ∀ s ∈ resources, ∀ t ∈ resources,
      (indicesAfter history name).has s t = (indicesAfter history' name').has s t) :
    (indicesAfter history name).graph.order resources =
      (indicesAfter history' name').graph.order others := by
  refine order_congr hmembers fun s hs t ht => ?_
  rw [Index.has_graph, Index.has_graph, hedges s hs t ht]

/-- One index is filled, cleared, filled again and merged with another one and with itself; a second
history only enters the edges between members.  Both report the cycle of three members.  The first
index also has an edge that comes from outside and one that leads there. -/
theorem order_depends_on_induced_edges_of_merged :
    let history : List (Step Bool) :=
      [⟨true, .insert ⟨"C", "A"⟩⟩, ⟨false, .insert ⟨"D", "A"⟩⟩, ⟨true, .insert ⟨"B", "C"⟩⟩,
       ⟨false, .clear⟩, ⟨false, .insert ⟨"A", "B"⟩⟩, ⟨false, .insert ⟨"X", "C"⟩⟩,
       ⟨false, .merge (some true)⟩, ⟨false, .insert ⟨"B", "Y"⟩⟩, ⟨false, .merge (some false)⟩]
    let history' : List (Step Unit) :=
      [⟨(), .insert ⟨"B", "C"⟩⟩, ⟨(), .insert ⟨"A", "B"⟩⟩, ⟨(), .insert ⟨"C", "A"⟩⟩]
    let resources : List Text := ["D", "C", "A", "B", "A"]
    let others : List Text := ["A", "B", "C", "D"]
    let cycle : Cycle := ⟨"A", ["A", "B", "C", "A"]⟩
    (∀ s, s ∈ resources ↔ s ∈ others) ∧
      (∀ s ∈ resources, ∀ t ∈ resources,
        (indicesAfter history false).has s t = (indicesAfter history' ()).has s t) ∧
      (indicesAfter history' ()).graph.order others = .error cycle ∧
      (indicesAfter history false).graph.order resources =
        (indicesAfter history' ()).graph.order others := by
  intro history history' resources others cycle
  have hmembers : ∀ s, s ∈ resources ↔ s ∈ others := by
    intro s
    simp only [resources, others, List.mem_cons, List.not_mem_nil, or_false]
    tauto
  have hedges : ∀ s ∈ resources, ∀ t ∈ resources,
      (indicesAfter history false).has s t = (indicesAfter history' ()).has s t := by
    decide +kernel
  have hcycle : (indicesAfter history' ()).graph.order others = .error cycle := by
    decide +kernel
  exact ⟨hmembers, hedges, hcycle,
    order_depends_on_induced_edges history false history' () hmembers hedges⟩

end CloudTemplate.Graph
