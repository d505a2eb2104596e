import CloudTemplate.Graph

/-!
# Edges by source and by target

While a graph is put together its edges are kept twice: an index has, for each source, the set of
its targets, and for each target the set of its sources.  Either side answers its own questions, so
both have to say the same at all times.

`Buckets` is one side.  A name has a set there only once something is put into it, and it has no
more than one.  `Index.graph` is the graph that an index stands for.
-/

namespace CloudTemplate

namespace Graph

/-- Sets of names, each kept under a name of its own.  No name is there twice, and no set is
empty. -/
structure Buckets where
  entries : Fields (SortedSet Text)
  distinct : entries.names.Nodup
  inhabited : ∀ entry ∈ entries, entry.2.toList ≠ []

namespace Buckets

/-- No sets at all. -/
def empty : Buckets := ⟨[], List.nodup_nil, by simp⟩

/-- The set under a name, which is empty unless something was put there. -/
def under (b : Buckets) (key : Text) : SortedSet Text :=
  (b.entries.get? key).getD .empty

/-- Put a name into the set under another one. -/
def put (b : Buckets) (key member : Text) : Buckets where
  entries := b.entries.set key ((b.under key).insert member)
  distinct := Fields.nodup_names_set b.distinct _ _
  inhabited := by
    intro entry hentry
    rcases Fields.mem_set hentry with rfl | hentry
    · exact List.ne_nil_of_mem (SortedSet.mem_insert.mpr (.inl rfl))
    · exact b.inhabited entry hentry

@[simp]
theorem not_mem_under_empty (key member : Text) : member ∉ empty.under key :=
  List.not_mem_nil

@[simp]
theorem mem_under_put {b : Buckets} {key member key' member' : Text} :
    member' ∈ (b.put key member).under key' ↔
      key' = key ∧ member' = member ∨ member' ∈ b.under key' := by
  rw [under, put]
  by_cases hkey : key' = key
  · subst hkey
    simp
  · rw [Fields.get?_set_of_ne _ _ hkey]
    simp [hkey, under]

/-- The set under a name with an entry is that of the entry. -/
theorem under_of_mem {b : Buckets} {entry : Text × SortedSet Text} (h : entry ∈ b.entries) :
    b.under entry.1 = entry.2 := by
  rw [under, Fields.get?_of_mem b.distinct h, Option.getD_some]

/-- What is in a set has put an entry there. -/
theorem mem_entries_of_mem_under {b : Buckets} {key member : Text} (h : member ∈ b.under key) :
    (key, b.under key) ∈ b.entries := by
  cases hget : b.entries.get? key with
  | none =>
    rw [under, hget] at h
    cases h
  | some members =>
    rw [under, hget]
    exact Fields.mem_of_get? hget

/-- Just the names under which there is something have an entry. -/
theorem mem_names_iff {b : Buckets} {key : Text} :
    key ∈ b.entries.names ↔ ∃ member, member ∈ b.under key := by
  constructor
  · intro h
    obtain ⟨entry, hentry, rfl⟩ := List.mem_map.mp h
    rw [under_of_mem hentry]
    exact List.exists_mem_of_ne_nil _ (b.inhabited entry hentry)
  · rintro ⟨member, h⟩
    exact List.mem_map_of_mem (mem_entries_of_mem_under h)

end Buckets

/-- The edges of a graph, under their sources and once more under their targets. -/
structure Index where
  bySource : Buckets
  byTarget : Buckets

namespace Index

/-- The index without edges. -/
def empty : Index := ⟨.empty, .empty⟩

instance : Inhabited Index := ⟨empty⟩

/-- Enter an edge on both sides. -/
def insert (x : Index) (edge : Edge) : Index where
  bySource := x.bySource.put edge.source edge.target
  byTarget := x.byTarget.put edge.target edge.source

/-- The edges, as they stand under their sources. -/
def edges (x : Index) : List Edge :=
  x.bySource.entries.flatMap fun entry => entry.2.toList.map (Edge.mk entry.1)

/-- Enter all edges of another index, if there is one. -/
def merge (x : Index) : Option Index → Index
  | none => x
  | some other => other.edges.foldl insert x

/-- Whether there is an edge from `source` to `target`. -/
def has (x : Index) (source target : Text) : Bool :=
  decide (target ∈ x.bySource.under source)

/-- What `source` refers to, in increasing order. -/
def targets (x : Index) (source : Text) : List Text :=
  (x.bySource.under source).toList

/-- What refers to `target`, in increasing order. -/
def sources (x : Index) (target : Text) : List Text :=
  (x.byTarget.under target).toList

/-- Each name at which an edge begins, in increasing order, with its targets. -/
def adjacency (x : Index) : Fields (List Text) :=
  (SortedSet.ofList x.bySource.entries.names).toList.map fun source => (source, x.targets source)

/-- The number of edges. -/
def size (x : Index) : Nat :=
  x.bySource.entries.values.foldl (fun count targets => count + targets.size) 0

/-- The graph that an index stands for. -/
def graph (x : Index) : Graph :=
  Graph.empty.insertAll x.edges

theorem has_iff {x : Index} {source target : Text} :
    x.has source target = true ↔ target ∈ x.bySource.under source := decide_eq_true_iff

/-- The edges are what the index has. -/
@[simp]
theorem mem_edges {x : Index} {edge : Edge} :
    edge ∈ x.edges ↔ x.has edge.source edge.target = true := by
  rw [edges, List.mem_flatMap, has_iff]
  constructor
  · rintro ⟨entry, hentry, hmem⟩
    obtain ⟨target, htarget, rfl⟩ := List.mem_map.mp hmem
    rw [Buckets.under_of_mem hentry]
    exact htarget
  · intro h
    exact ⟨_, Buckets.mem_entries_of_mem_under h, List.mem_map.mpr ⟨edge.target, h, rfl⟩⟩

/-- An index and its graph have the same edges. -/
theorem has_graph {x : Index} {source target : Text} :
    x.graph.has source target = x.has source target := by
  rw [Bool.eq_iff_iff, graph, has_insertAll, mem_edges]
  exact or_iff_right (by simp [Graph.has, Graph.empty, SortedSet.mem_def, SortedSet.empty])

end Index

end Graph

end CloudTemplate
