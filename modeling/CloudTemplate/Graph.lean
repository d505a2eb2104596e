import CloudTemplate.SortedSet
import CloudTemplate.Fields

/-!
# Dependency graphs

A graph is a finite set of edges between names; an edge goes from a resource to one that it refers
to.  Edges are ordered by source and then by target, so that all listings are sorted.
-/

namespace CloudTemplate

/-- An edge: the source refers to the target. -/
structure Edge where
  source : Text
  target : Text
  deriving DecidableEq, Inhabited

namespace Edge

/-- Edges are ordered by source, and by target where the sources agree. -/
instance : LT Edge :=
  ⟨fun a b => a.source < b.source ∨ (a.source = b.source ∧ a.target < b.target)⟩

theorem lt_def {a b : Edge} :
    a < b ↔ a.source < b.source ∨ (a.source = b.source ∧ a.target < b.target) := Iff.rfl

instance : DecidableLT Edge := fun a b =>
  inferInstanceAs (Decidable (a.source < b.source ∨ (a.source = b.source ∧ a.target < b.target)))

instance : Trans (α := Edge) (· < ·) (· < ·) (· < ·) where
  trans {a b c} hab hbc := by
    rw [lt_def] at *
    rcases hab with hab | ⟨hab, hab'⟩ <;> rcases hbc with hbc | ⟨hbc, hbc'⟩
    · exact .inl (List.lt_trans hab hbc)
    · exact .inl (hbc ▸ hab)
    · exact .inl (hab ▸ hbc)
    · exact .inr ⟨hab.trans hbc, List.lt_trans hab' hbc'⟩

instance : Std.Irrefl (α := Edge) (· < ·) where
  irrefl a h := by
    rw [lt_def] at h
    rcases h with h | ⟨-, h⟩ <;> exact List.lt_irrefl _ h

instance : Std.Trichotomous (α := Edge) (· < ·) where
  trichotomous a b hab hba := by
    obtain ⟨s, t⟩ := a
    obtain ⟨s', t'⟩ := b
    simp only [lt_def, not_or, not_and] at hab hba
    have hs : s = s' := Std.Trichotomous.trichotomous (r := (· < ·)) s s' hab.1 hba.1
    subst hs
    exact congrArg (Edge.mk s)
      (Std.Trichotomous.trichotomous (r := (· < ·)) t t' (hab.2 rfl) (hba.2 rfl))

end Edge

/-- A set of edges. -/
@[ext]
structure Graph where
  edges : SortedSet Edge
  deriving Inhabited

namespace Graph

/-- The graph without edges. -/
def empty : Graph := ⟨.empty⟩

/-- The graph with one more edge. -/
def insert (g : Graph) (edge : Edge) : Graph := ⟨g.edges.insert edge⟩

/-- The graph with the edges of a list added. -/
def insertAll (g : Graph) (edges : List Edge) : Graph := ⟨g.edges.insertAll edges⟩

/-- The edges of either graph. -/
def union (g h : Graph) : Graph := ⟨g.edges.union h.edges⟩

/-- Whether there is an edge from `source` to `target`. -/
def has (g : Graph) (source target : Text) : Bool :=
  decide (Edge.mk source target ∈ g.edges)

/-- What `source` refers to, in increasing order. -/
def targets (g : Graph) (source : Text) : List Text :=
  (g.edges.toList.filter (·.source = source)).map (·.target)

/-- What refers to `target`, in increasing order. -/
def sources (g : Graph) (target : Text) : List Text :=
  (g.edges.toList.filter (·.target = target)).map (·.source)

/-- The names at which an edge begins. -/
def origins (g : Graph) : SortedSet Text :=
  .ofList (g.edges.toList.map (·.source))

/-- The names at which an edge begins or ends. -/
def nodes (g : Graph) : SortedSet Text :=
  g.origins.insertAll (g.edges.toList.map (·.target))

/-- Each name at which an edge begins, with its targets. -/
def adjacency (g : Graph) : Fields (List Text) :=
  g.origins.toList.map fun source => (source, g.targets source)

/-- The number of edges. -/
def size (g : Graph) : Nat := g.edges.size

theorem has_iff {g : Graph} {source target : Text} :
    g.has source target = true ↔ Edge.mk source target ∈ g.edges := decide_eq_true_iff

@[simp]
theorem mem_targets {g : Graph} {source target : Text} :
    target ∈ g.targets source ↔ g.has source target = true := by
  rw [has_iff, SortedSet.mem_def, targets, List.mem_map]
  constructor
  · rintro ⟨⟨s, t⟩, hmem, rfl⟩
    obtain ⟨hmem, hs⟩ := List.mem_filter.mp hmem
    exact of_decide_eq_true hs ▸ hmem
  · exact fun h => ⟨⟨source, target⟩, List.mem_filter.mpr ⟨h, by simp⟩, rfl⟩

@[simp]
theorem mem_sources {g : Graph} {source target : Text} :
    source ∈ g.sources target ↔ g.has source target = true := by
  rw [has_iff, SortedSet.mem_def, sources, List.mem_map]
  constructor
  · rintro ⟨⟨s, t⟩, hmem, rfl⟩
    obtain ⟨hmem, ht⟩ := List.mem_filter.mp hmem
    exact of_decide_eq_true ht ▸ hmem
  · exact fun h => ⟨⟨source, target⟩, List.mem_filter.mpr ⟨h, by simp⟩, rfl⟩

/-- Adding edges makes the graph have just these and those that it had. -/
@[simp]
theorem has_insertAll {g : Graph} {edges : List Edge} {source target : Text} :
    (g.insertAll edges).has source target = true ↔
      g.has source target = true ∨ Edge.mk source target ∈ edges := by
  rw [has_iff, has_iff, insertAll, SortedSet.mem_insertAll]

/-- Adding no edges changes nothing. -/
@[simp]
theorem insertAll_nil (g : Graph) : g.insertAll [] = g :=
  Graph.ext (SortedSet.insertAll_nil g.edges)

/-- Walks end because every step takes a node out of the list of those that are left. -/
theorem length_erase_lt {nodes : List Text} {node : Text} (h : node ∈ nodes) :
    (nodes.erase node).length < nodes.length := by
  have := List.length_erase_of_mem h
  have := List.length_pos_of_mem h
  omega

end Graph

end CloudTemplate
