import Mathlib.Data.List.Sort
import CloudTemplate.Graph

/-!
# Sets and graphs by what they list

A set is the increasing list of its members, and increasing lists with the same members are equal.
So sets with the same members are equal, and graphs with the same edges.

The edges of a graph are ordered by source and then by target.  Those at one end have increasing
names at their other ends: what a name refers to is listed in increasing order, and what refers to
it as well.

## Main results

* `SortedSet.ext_mem`, `Graph.ext_has`: a set is determined by its members, a graph by its edges.
* `Graph.increasing_targets`, `Graph.increasing_sources`: the listings of a graph are increasing.
* `Graph.filter_targets_congr`: the members of a set among the targets of a name depend on the edges
  that lead to them only.
-/

namespace CloudTemplate

namespace SortedSet

variable {α : Type} [LT α] [Trans (α := α) (· < ·) (· < ·) (· < ·)] [Std.Irrefl (α := α) (· < ·)]

/-- A set is determined by its members. -/
theorem ext_mem {s t : SortedSet α} (h : ∀ x, x ∈ s ↔ x ∈ t) : s = t :=
  SortedSet.ext (s.increasing.eq_of_mem_iff t.increasing h)

variable [DecidableEq α] [DecidableLT α] [Std.Trichotomous (α := α) (· < ·)]

/-- Lists with the same members make up the same set. -/
theorem ofList_congr {members others : List α} (h : ∀ x, x ∈ members ↔ x ∈ others) :
    ofList members = ofList others :=
  ext_mem fun x => by rw [mem_ofList, mem_ofList, h]

/-- One member and then those of a list are the members of a longer list. -/
theorem insertAll_insert (s : SortedSet α) (a : α) (members : List α) :
    (s.insert a).insertAll members = s.insertAll (a :: members) :=
  ext_mem (by simp [or_assoc, or_left_comm])

end SortedSet

namespace Graph

variable {g h : Graph}

/-- A graph is determined by its edges. -/
theorem ext_has (hedges : ∀ source target, g.has source target = h.has source target) : g = h :=
  Graph.ext (SortedSet.ext_mem fun edge => by
    rw [← has_iff, ← has_iff, hedges edge.source edge.target])

/-- Among the edges at one end, an edge that comes later has a later name at its other end.  Then
these names are listed in increasing order. -/
theorem increasing_ends {near far : Edge → Text}
    (hfar : ∀ edge edge', near edge = near edge' → edge < edge' → far edge < far edge')
    (g : Graph) (name : Text) :
    ((g.edges.toList.filter (near · = name)).map far).Pairwise (· < ·) := by
  refine List.pairwise_map.mpr ((g.edges.increasing.filter _).imp_of_mem ?_)
  intro edge edge' hmem hmem' hlt
  have hnear := of_decide_eq_true (List.mem_filter.mp hmem).2
  have hnear' := of_decide_eq_true (List.mem_filter.mp hmem').2
  exact hfar edge edge' (hnear.trans hnear'.symm) hlt

/-- The targets of a name are listed in increasing order. -/
theorem increasing_targets (g : Graph) (source : Text) : (g.targets source).Pairwise (· < ·) := by
  refine g.increasing_ends (fun edge edge' hsource hlt => ?_) source
  rcases Edge.lt_def.mp hlt with hlt | ⟨-, hlt⟩
  · exact absurd (hsource ▸ hlt) (List.lt_irrefl _)
  · exact hlt

/-- What refers to a name is listed in increasing order. -/
theorem increasing_sources (g : Graph) (target : Text) : (g.sources target).Pairwise (· < ·) := by
  refine g.increasing_ends (fun edge edge' htarget hlt => ?_) target
  rcases Edge.lt_def.mp hlt with hlt | ⟨-, hlt⟩
  · exact hlt
  · exact absurd (htarget ▸ hlt) (List.lt_irrefl _)

/-- The targets of a name that are in a set depend on no more than the edges that lead there. -/
theorem filter_targets_congr {members : SortedSet Text} {source : Text}
    (hedges : ∀ t ∈ members, g.has source t = h.has source t) :
    (g.targets source).filter (· ∈ members) = (h.targets source).filter (· ∈ members) := by
  refine ((g.increasing_targets source).filter _).eq_of_mem_iff
    ((h.increasing_targets source).filter _) fun t => ?_
  rw [List.mem_filter, List.mem_filter, mem_targets, mem_targets]
  refine and_congr_left fun ht => ?_
  rw [hedges t (of_decide_eq_true ht)]

end Graph

end CloudTemplate
