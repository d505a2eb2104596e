import Mathlib.Data.Finset.Card
import CloudTemplate.Graph.Index

/-!
# Histories of indices

Several indices are put together side by side: edges are entered, one index is merged into another,
and indices are cleared.  The same history makes a family of sets of edges by insertions, unions and
clearing.  `Index.Represents` is the invariant that ties an index to its set: both sides of the
index hold just the edges of the set.  It is kept by every change (`Index.Represents.onIndex`), also
where an index is merged into itself, and so it holds after every history (`represents_after`).

## Main results

* `Graph.index_stands_for_set`: after every history an index answers all questions as the set of its
  edges does, and merging it into another leaves its answers as they are.
-/

namespace CloudTemplate.Graph

/-- A change to one of several collections of edges, which have names of type `ι`. -/
inductive Change (ι : Type) where
  | insert (edge : Edge)
  | merge (other : Option ι)
  | clear

/-- A change to the collection called `name`. -/
structure Step (ι : Type) where
  name : ι
  change : Change ι

variable {ι : Type}

/-- What a change makes of an index; the others are as given. -/
def Change.onIndex (indices : ι → Index) (x : Index) : Change ι → Index
  | .insert edge => x.insert edge
  | .merge other => x.merge (other.map indices)
  | .clear => .empty

/-- What a change makes of a set of edges; the others are as given. -/
def Change.onSet (sets : ι → Finset Edge) (edges : Finset Edge) : Change ι → Finset Edge
  | .insert edge => Insert.insert edge edges
  | .merge none => edges
  | .merge (some other) => edges ∪ sets other
  | .clear => ∅

/-- The indices after a history that begins with empty ones. -/
def indicesAfter [DecidableEq ι] (history : List (Step ι)) : ι → Index :=
  history.foldl (fun indices step => Function.update indices step.name
    (step.change.onIndex indices (indices step.name))) fun _ => .empty

/-- The sets of edges after a history that begins with empty ones. -/
def setsAfter [DecidableEq ι] (history : List (Step ι)) : ι → Finset Edge :=
  history.foldl (fun sets step => Function.update sets step.name
    (step.change.onSet sets (sets step.name))) fun _ => ∅

namespace Index

/-- Both sides of an index hold just the edges of a set. -/
structure Represents (x : Index) (edges : Finset Edge) : Prop where
  bySource : ∀ source target, target ∈ x.bySource.under source ↔ ⟨source, target⟩ ∈ edges
  byTarget : ∀ source target, source ∈ x.byTarget.under target ↔ ⟨source, target⟩ ∈ edges

/-- An index answers all questions as a set of edges does. -/
structure StandsFor (x : Index) (edges : Finset Edge) : Prop where
  has : ∀ source target, x.has source target = true ↔ ⟨source, target⟩ ∈ edges
  targets : ∀ source, (x.targets source).Pairwise (· < ·) ∧
    ∀ target, target ∈ x.targets source ↔ ⟨source, target⟩ ∈ edges
  sources : ∀ target, (x.sources target).Pairwise (· < ·) ∧
    ∀ source, source ∈ x.sources target ↔ ⟨source, target⟩ ∈ edges
  adjacency : x.adjacency.names.Pairwise (· < ·) ∧
    (∀ source, source ∈ x.adjacency.names ↔ ∃ target, ⟨source, target⟩ ∈ edges) ∧
    ∀ entry ∈ x.adjacency, entry.2 = x.targets entry.1
  size : x.size = edges.card
  /-- A name is under another on one side just if the other is under it on the other side. -/
  inverse : ∀ source target,
    target ∈ x.bySource.under source ↔ source ∈ x.byTarget.under target
  graph : ∀ source target, x.graph.has source target = true ↔ ⟨source, target⟩ ∈ edges

variable {x : Index} {edges : Finset Edge}

/-! ### The invariant -/

theorem represents_empty : empty.Represents ∅ where
  bySource source target := by simp [empty]
  byTarget source target := by simp [empty]

theorem Represents.insert (h : x.Represents edges) (edge : Edge) :
    (x.insert edge).Represents (Insert.insert edge edges) where
  bySource source target := by
    rw [Index.insert, Buckets.mem_under_put, h.bySource, Finset.mem_insert]
    exact or_congr_left (Edge.mk.injEq ..).symm.to_iff
  byTarget source target := by
    rw [Index.insert, Buckets.mem_under_put, h.byTarget, Finset.mem_insert]
    exact or_congr_left (and_comm.trans (Edge.mk.injEq ..).symm.to_iff)

/-- Entering edges one after the other adds them all. -/
theorem Represents.foldl (h : x.Represents edges) (more : List Edge) :
    (more.foldl Index.insert x).Represents (edges ∪ more.toFinset) := by
  induction more generalizing x edges with
  | nil => simpa using h
  | cons edge rest ih =>
    have hrest := ih (h.insert edge)
    rwa [Finset.insert_union, ← Finset.union_insert, ← List.toFinset_cons] at hrest

/-- The edges that an index lists are those of its set. -/
theorem Represents.toFinset_edges (h : x.Represents edges) : x.edges.toFinset = edges := by
  ext edge
  rw [List.mem_toFinset, mem_edges, has_iff, h.bySource]

theorem Represents.merge {other : Index} {others : Finset Edge} (h : x.Represents edges)
    (hother : other.Represents others) :
    (x.merge (some other)).Represents (edges ∪ others) := by
  rw [Index.merge, ← hother.toFinset_edges]
  exact h.foldl other.edges

/-- **A change keeps the invariant.** -/
theorem Represents.onIndex {indices : ι → Index} {sets : ι → Finset Edge}
    (hothers : ∀ name, (indices name).Represents (sets name)) (h : x.Represents edges)
    (change : Change ι) : (change.onIndex indices x).Represents (change.onSet sets edges) := by
  cases change with
  | insert edge => exact h.insert edge
  | merge other =>
    cases other with
    | none => exact h
    | some name => exact h.merge (hothers name)
  | clear => exact represents_empty

/-- An index represents its set after every history.  The steps are taken off at the end, so that
what went before is a history again. -/
theorem represents_after [DecidableEq ι] (history : List (Step ι)) (name : ι) :
    (indicesAfter history name).Represents (setsAfter history name) := by
  induction history using List.reverseRecOn generalizing name with
  | nil => exact represents_empty
  | append_singleton history step ih =>
    rw [indicesAfter, setsAfter, List.foldl_concat, List.foldl_concat]
    by_cases hname : name = step.name
    · subst hname
      rw [Function.update_self, Function.update_self]
      exact Represents.onIndex ih (ih step.name) step.change
    · rw [Function.update_of_ne hname, Function.update_of_ne hname]
      exact ih name

/-! ### What the invariant tells -/

theorem nodup_edges (x : Index) : x.edges.Nodup := by
  refine List.nodup_flatMap.mpr ⟨fun entry _ => ?_, ?_⟩
  · have hnodup : entry.2.toList.Nodup := by
      refine entry.2.increasing.imp ?_
      rintro target _ hlt rfl
      exact List.lt_irrefl target hlt
    exact hnodup.map fun _ _ h => (Edge.mk.inj h).2
  · refine (List.pairwise_map.mp x.bySource.distinct).imp fun hne edge hleft hright => ?_
    obtain ⟨target, -, rfl⟩ := List.mem_map.mp hleft
    obtain ⟨other, -, heq⟩ := List.mem_map.mp hright
    exact hne (Edge.mk.inj heq).1.symm

theorem foldl_size_eq_length (entries : Fields (SortedSet Text)) (n : Nat) :
    entries.values.foldl (fun count targets => count + targets.size) n =
      n + (entries.flatMap fun entry => entry.2.toList.map (Edge.mk entry.1)).length := by
  induction entries generalizing n with
  | nil => rfl
  | cons entry rest ih =>
    rw [List.flatMap_cons, List.length_append, List.length_map, ← Nat.add_assoc]
    exact ih (n + entry.2.size)

theorem size_eq_length_edges (x : Index) : x.size = x.edges.length := by
  rw [size, foldl_size_eq_length, Nat.zero_add, edges]

/-- An index that represents a set answers as the set does. -/
theorem Represents.standsFor (h : x.Represents edges) : x.StandsFor edges where
  has source target := by rw [has_iff, h.bySource]
  targets source := ⟨(x.bySource.under source).increasing, h.bySource source⟩
  sources target := ⟨(x.byTarget.under target).increasing, fun source => h.byTarget source target⟩
  adjacency := by
    have hnames : x.adjacency.names = (SortedSet.ofList x.bySource.entries.names).toList := by
      rw [Index.adjacency, Fields.names, List.map_map]
      exact List.map_id _
    refine ⟨?increasing, fun source => ?names, fun entry hentry => ?entries⟩
    case increasing =>
      rw [hnames]
      exact SortedSet.increasing _
    case names =>
      rw [hnames, ← SortedSet.mem_def, SortedSet.mem_ofList, Buckets.mem_names_iff]
      exact exists_congr (h.bySource source)
    case entries =>
      obtain ⟨source, -, rfl⟩ := List.mem_map.mp hentry
      rfl
  size := by
    rw [size_eq_length_edges, ← h.toFinset_edges, List.toFinset_card_of_nodup x.nodup_edges]
  inverse source target := (h.bySource source target).trans (h.byTarget source target).symm
  graph source target := by rw [has_graph, has_iff, h.bySource]

end Index

/-- **An index is a set of edges.**  Take any history of insertions, merges and clearings of any
number of indices that are empty at first, and the sets of edges that come of the same insertions,
unions and clearings.  Afterwards each index answers all questions as its set does; and when it is
then merged into any index, also into itself, it has the edges that it had. -/
theorem index_stands_for_set [DecidableEq ι] (history : List (Step ι)) (name : ι) :
    (indicesAfter history name).StandsFor (setsAfter history name) ∧
      ∀ into source target,
        (indicesAfter (history ++ [⟨into, .merge (some name)⟩]) name).has source target =
          (indicesAfter history name).has source target := by
  have hstands := fun history => (Index.represents_after history name).standsFor
  refine ⟨hstands history, fun into source target => ?_⟩
  have hsets : setsAfter (history ++ [⟨into, .merge (some name)⟩]) name =
      setsAfter history name := by
    rw [setsAfter, List.foldl_concat, ← setsAfter]
    by_cases hname : name = into
    · subst hname
      rw [Function.update_self, Change.onSet, Finset.union_self]
    · rw [Function.update_of_ne hname]
  rw [Bool.eq_iff_iff, (hstands _).has, (hstands _).has, hsets]

end CloudTemplate.Graph
