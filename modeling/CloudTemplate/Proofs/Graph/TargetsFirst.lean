import Mathlib.Data.List.Chain
import Mathlib.Data.List.Nodup
import CloudTemplate.Graph.Traversal

/-!
# The search for an order in which targets come first

The search of `Graph.order` descends along a path and extends a list on its way back.  At every
moment the list holds some members once each, every one behind its targets, and none of them is on
the path (`Graph.IsListing`); the path follows edges between members and does not meet itself
(`Graph.IsWay`).  A visit keeps the first as long as the second holds, and what it reports instead
of a list is a simple cycle (`Graph.answers_visit`).

## Main results

* `Graph.order_fails_iff_cyclic_and_lists_targets_first`: there is an order if and only if the edges
  between members have no cycle, and then it holds every member once, behind its targets.
* `Graph.order_reports_cycle`: what is reported where there is no order is a simple cycle of edges
  between members.
-/

namespace CloudTemplate.Graph

/-- An edge between two members of a list. -/
def IsInner (g : Graph) (members : List Text) (s t : Text) : Prop :=
  g.has s t = true ∧ s ∈ members ∧ t ∈ members

/-- Every name of a list stands behind the members to which it refers. -/
def TargetsFirst (g : Graph) (members order : List Text) : Prop :=
  ∀ before s behind, order = before ++ s :: behind → ∀ t, g.IsInner members s t → t ∈ before

/-- What is true of the list `done` while the search is at the end of `path`. -/
structure IsListing (g : Graph) (members : SortedSet Text) (path done : List Text) : Prop where
  nodup : done.Nodup
  subset : ∀ s ∈ done, s ∈ members
  targetsFirst : g.TargetsFirst members.toList done
  disjoint : ∀ s ∈ path, s ∉ done

/-- What is true of the path along which the search descends. -/
structure IsWay (g : Graph) (members : SortedSet Text) (path : List Text) : Prop where
  nodup : path.Nodup
  subset : ∀ s ∈ path, s ∈ members
  chain : path.IsChain fun s t => g.has s t = true

/-- A simple cycle among the members: it leaves its resource along edges, meets no name twice and
comes back. -/
def Cycle.IsSimpleIn (g : Graph) (members : SortedSet Text) (cycle : Cycle) : Prop :=
  ∃ inner, cycle.path = cycle.resource :: inner ++ [cycle.resource] ∧
    g.IsWay members (cycle.resource :: inner) ∧
    cycle.path.IsChain fun s t => g.has s t = true

/-- The answers of a search that is to add `names` to the list `done`: a list that begins with
`done` and holds the names, or a simple cycle. -/
def Answers (g : Graph) (members : SortedSet Text) (path done names : List Text) :
    Except Cycle (List Text) → Prop
  | .ok order => g.IsListing members path order ∧ done <+: order ∧ ∀ s ∈ names, s ∈ order
  | .error cycle => cycle.IsSimpleIn g members

variable {g : Graph} {members : SortedSet Text} {path done : List Text}

/-! ### Lists in which targets come first -/

theorem targetsFirst_nil (members : List Text) : g.TargetsFirst members [] := by
  intro before s behind h
  simp at h

/-- A name may be put at the end once its targets are there. -/
theorem TargetsFirst.concat {members order : List Text} {s : Text}
    (h : g.TargetsFirst members order) (hs : ∀ t, g.IsInner members s t → t ∈ order) :
    g.TargetsFirst members (order ++ [s]) := by
  intro before a behind heq t ht
  rcases List.eq_nil_or_concat behind with rfl | ⟨behind, z, rfl⟩
  · obtain ⟨rfl, ha⟩ := List.append_inj' heq rfl
    obtain rfl := List.head_eq_of_cons_eq ha
    exact hs t ht
  · have heq : order ++ [s] = (before ++ a :: behind) ++ [z] := by simpa using heq
    exact h before a behind (List.append_inj' heq rfl).1 t ht

/-- In such a list the place of a target is before that of the name that refers to it. -/
theorem TargetsFirst.idxOf_lt {members order : List Text} (h : g.TargetsFirst members order)
    (hnodup : order.Nodup) {s t : Text} (hs : s ∈ order) (ht : g.IsInner members s t) :
    order.idxOf t < order.idxOf s := by
  obtain ⟨before, behind, rfl⟩ := List.append_of_mem hs
  have hmem : t ∈ before := h before s behind rfl t ht
  have hnot : s ∉ before := fun hsb =>
    List.disjoint_of_nodup_append hnodup hsb List.mem_cons_self
  rw [List.idxOf_append_of_mem hmem, List.idxOf_append_of_notMem hnot, List.idxOf_cons_self]
  exact Nat.lt_of_lt_of_le (List.idxOf_lt_length_of_mem hmem) (Nat.le_add_right _ _)

/-! ### Cycles -/

/-- A path that is closed by an edge back to one of its names has a simple cycle at its end. -/
theorem isSimpleIn_close (hway : g.IsWay members path) {resource : Text} (hmem : resource ∈ path)
    (hchain : (path ++ [resource]).IsChain fun s t => g.has s t = true) :
    (Cycle.close path resource).IsSimpleIn g members := by
  obtain ⟨before, behind, rfl, hnot⟩ := List.eq_append_cons_of_mem hmem
  have hdrop : (before ++ resource :: behind).dropWhile (· ≠ resource) = resource :: behind := by
    rw [List.dropWhile_append_of_pos]
    · simp
    · exact fun a ha => decide_eq_true (ne_of_mem_of_not_mem ha hnot)
  refine ⟨behind, ?_, ⟨?_, ?_, ?_⟩, ?_⟩
  · simp only [Cycle.close, hdrop, List.cons_append]
  · exact hway.nodup.of_append_right
  · exact fun s hs => hway.subset s (List.mem_append_right _ hs)
  · exact hway.chain.right_of_append
  · simp only [Cycle.close, hdrop]
    rw [List.append_assoc] at hchain
    exact hchain.right_of_append

/-- A simple cycle passes members only. -/
theorem Cycle.IsSimpleIn.subset {cycle : Cycle} (h : cycle.IsSimpleIn g members) :
    ∀ s ∈ cycle.path, s ∈ members := by
  obtain ⟨inner, hpath, hway, -⟩ := h
  intro s hs
  rw [hpath] at hs
  rcases List.mem_append.mp hs with hs | hs
  · exact hway.subset s hs
  · exact List.mem_singleton.mp hs ▸ hway.subset _ List.mem_cons_self

/-- A simple cycle leads from its resource back to it along edges between members. -/
theorem Cycle.IsSimpleIn.transGen {cycle : Cycle} (h : cycle.IsSimpleIn g members) :
    Relation.TransGen (g.IsInner members.toList) cycle.resource cycle.resource := by
  have hmem := h.subset
  obtain ⟨inner, hpath, hway, hchain⟩ := h
  rw [hpath] at hchain hmem
  have hinner : (cycle.resource :: inner ++ [cycle.resource]).IsChain
      (g.IsInner members.toList) :=
    hchain.imp_of_mem_imp fun s t hs ht hst => ⟨hst, hmem s hs, hmem t ht⟩
  cases inner with
  | nil => exact .single (List.isChain_pair.mp hinner)
  | cons a rest =>
    obtain ⟨hfirst, hrest⟩ := List.isChain_cons_cons.mp hinner
    exact .head' hfirst (List.relationReflTransGen_of_exists_isChain_cons _ hrest (by simp))

/-! ### The search -/

theorem isListing_nil : g.IsListing members [] [] :=
  ⟨List.nodup_nil, by simp, targetsFirst_nil _, by simp⟩

theorem isWay_nil : g.IsWay members [] :=
  ⟨List.nodup_nil, by simp, List.isChain_nil⟩

/-- If every visit of a name answers, so do visits one after the other. -/
theorem answers_foldlM {visit : List Text → Text → Except Cycle (List Text)} {names : List Text}
    (hvisit : ∀ done, g.IsListing members path done → ∀ s ∈ names,
      g.Answers members path done [s] (visit done s))
    (hdone : g.IsListing members path done) :
    g.Answers members path done names (names.foldlM visit done) := by
  induction names generalizing done with
  | nil => exact ⟨hdone, List.prefix_refl done, by simp⟩
  | cons s rest ih =>
    have hs := hvisit done hdone s List.mem_cons_self
    rw [List.foldlM_cons]
    cases hv : visit done s with
    | error cycle => rwa [hv] at hs
    | ok next =>
      rw [hv] at hs
      obtain ⟨hnext, hprefix, hmem⟩ := hs
      have hrest := ih (fun d hd t ht => hvisit d hd t (List.mem_cons_of_mem _ ht)) hnext
      change g.Answers members path done (s :: rest) (rest.foldlM visit next)
      cases hf : rest.foldlM visit next with
      | error cycle => rwa [hf] at hrest
      | ok last =>
        rw [hf] at hrest
        obtain ⟨hlast, hprefix', hmem'⟩ := hrest
        refine ⟨hlast, hprefix.trans hprefix', fun t ht => ?_⟩
        rcases List.mem_cons.mp ht with rfl | ht
        · exact hprefix'.subset (hmem _ List.mem_cons_self)
        · exact hmem' t ht

/-- When the targets of a name are listed, the path gives the name up to the list. -/
theorem IsListing.concat {resource : Text} (hmem : resource ∈ members)
    (hnot : resource ∉ path) (h : g.IsListing members (path ++ [resource]) done)
    (htargets : ∀ t, g.has resource t = true → t ∈ members → t ∈ done) :
    g.IsListing members path (done ++ [resource]) := by
  have hdone : resource ∉ done := h.disjoint resource (by simp)
  refine ⟨List.concat_eq_append ▸ h.nodup.concat hdone, ?_, ?_, fun s hs hmem' => ?_⟩
  · exact List.forall_mem_append.mpr ⟨h.subset, List.forall_mem_singleton.mpr hmem⟩
  · exact h.targetsFirst.concat fun t ht => htargets t ht.1 ht.2.2
  · rcases List.mem_append.mp hmem' with hmem' | hmem'
    · exact h.disjoint s (List.mem_append_left _ hs) hmem'
    · exact hnot (List.mem_singleton.mp hmem' ▸ hs)

/-- The path may go on to a name that is not listed. -/
theorem IsListing.descend {resource : Text} (h : g.IsListing members path done)
    (hnot : resource ∉ done) : g.IsListing members (path ++ [resource]) done where
  nodup := h.nodup
  subset := h.subset
  targetsFirst := h.targetsFirst
  disjoint := List.forall_mem_append.mpr ⟨h.disjoint, List.forall_mem_singleton.mpr hnot⟩

/-- The path may go on along an edge to a member that is not on it. -/
theorem IsWay.concat {resource : Text} (h : g.IsWay members path) (hmem : resource ∈ members)
    (hnot : resource ∉ path)
    (hchain : (path ++ [resource]).IsChain fun s t => g.has s t = true) :
    g.IsWay members (path ++ [resource]) where
  nodup := List.concat_eq_append ▸ h.nodup.concat hnot
  subset := List.forall_mem_append.mpr ⟨h.subset, List.forall_mem_singleton.mpr hmem⟩
  chain := hchain

/-- **A visit.**  The members that are not on the path are `free`, and the path leads to the
resource.  Then a visit lists the resource or finds a simple cycle. -/
theorem answers_visit {free : List Text} {resource : Text} (hnodup : free.Nodup)
    (hfree : ∀ s, s ∈ free ↔ s ∈ members ∧ s ∉ path) (hway : g.IsWay members path)
    (hmem : resource ∈ members)
    (hchain : (path ++ [resource]).IsChain fun s t => g.has s t = true)
    (hdone : g.IsListing members path done) :
    g.Answers members path done [resource] (g.visit members free path done resource) := by
  induction free, path, done, resource using Graph.visit.induct g members with
  | case1 free path done resource hlisted =>
    rw [visit, if_pos hlisted]
    exact ⟨hdone, List.prefix_refl done, by simpa using hlisted⟩
  | case2 free path done resource hlisted hin ih =>
    have hnot : resource ∉ path := ((hfree resource).mp hin).2
    have hway' := hway.concat hmem hnot hchain
    have hfree' : ∀ s, s ∈ free.erase resource ↔ s ∈ members ∧ s ∉ path ++ [resource] := by
      intro s
      rw [hnodup.mem_erase_iff, hfree s, List.mem_append, List.mem_singleton]
      tauto
    have hvisit : ∀ d, g.IsListing members (path ++ [resource]) d →
        ∀ t ∈ (g.targets resource).filter (· ∈ members),
          g.Answers members (path ++ [resource]) d [t]
            (g.visit members (free.erase resource) (path ++ [resource]) d t) := by
      intro d hd t ht
      obtain ⟨ht, htm⟩ := List.mem_filter.mp ht
      refine ih d t (hnodup.erase _) hfree' hway' (of_decide_eq_true htm) ?_ hd
      rw [List.append_assoc]
      exact List.isChain_split.mpr ⟨hchain, List.isChain_pair.mpr (mem_targets.mp ht)⟩
    have hfold := answers_foldlM hvisit (hdone.descend hlisted)
    rw [visit, if_neg hlisted, if_pos hin]
    dsimp only
    cases hf : ((g.targets resource).filter (· ∈ members)).foldlM
        (g.visit members (free.erase resource) (path ++ [resource])) done with
    | error cycle =>
      rw [hf] at hfold
      exact hfold
    | ok order =>
      rw [hf] at hfold
      obtain ⟨horder, hprefix, hall⟩ := hfold
      refine ⟨horder.concat hmem hnot fun t ht htm => hall t ?_,
        hprefix.trans (List.prefix_append _ _), by simp⟩
      exact List.mem_filter.mpr ⟨mem_targets.mpr ht, decide_eq_true htm⟩
  | case3 free path done resource hlisted hin =>
    rw [visit, if_neg hlisted, if_neg hin]
    have hpath : resource ∈ path := by
      by_contra hnot
      exact hin ((hfree resource).mpr ⟨hmem, hnot⟩)
    exact isSimpleIn_close hway hpath hchain

/-- The whole search lists all members or finds a simple cycle. -/
theorem answers_order (g : Graph) (resources : List Text) :
    g.Answers (.ofList resources) [] [] (SortedSet.ofList resources).toList
      (g.order resources) := by
  refine answers_foldlM (fun d hd s hs => ?_) isListing_nil
  refine answers_visit ?_ (by simp [SortedSet.mem_def]) isWay_nil hs (by simp) hd
  exact (SortedSet.ofList resources).increasing.imp Std.ne_of_lt

/-- An order holds every member once and nothing else. -/
theorem nodup_and_mem_of_order {resources order : List Text}
    (h : g.order resources = .ok order) : order.Nodup ∧ ∀ a, a ∈ order ↔ a ∈ resources := by
  have hanswers := g.answers_order resources
  rw [h] at hanswers
  obtain ⟨hlisting, -, hall⟩ := hanswers
  refine ⟨hlisting.nodup, fun a => ⟨fun ha => ?_, fun ha => ?_⟩⟩
  · exact SortedSet.mem_ofList.mp (hlisting.subset a ha)
  · exact hall a (SortedSet.mem_ofList.mpr ha)

/-- In an order the target of every edge between members comes before the source. -/
theorem idxOf_lt_of_order {resources order : List Text} (h : g.order resources = .ok order)
    {s t : Text} (hs : s ∈ resources) (ht : t ∈ resources) (hedge : g.has s t = true) :
    order.idxOf t < order.idxOf s := by
  have hanswers := g.answers_order resources
  rw [h] at hanswers
  obtain ⟨hlisting, -, hall⟩ := hanswers
  have hs : s ∈ SortedSet.ofList resources := SortedSet.mem_ofList.mpr hs
  have ht : t ∈ SortedSet.ofList resources := SortedSet.mem_ofList.mpr ht
  exact hlisting.targetsFirst.idxOf_lt hlisting.nodup (hall s hs) ⟨hedge, hs, ht⟩

/-- The place in an order falls along every edge between members, so these have no cycle. -/
theorem acyclic_of_order {resources order : List Text} (h : g.order resources = .ok order)
    (a : Text) : ¬ Relation.TransGen (g.IsInner resources) a a := by
  have hlt : ∀ {s t}, g.IsInner resources s t → order.idxOf t < order.idxOf s :=
    fun hst => idxOf_lt_of_order h hst.2.1 hst.2.2 hst.1
  have hfalls : ∀ {b}, Relation.TransGen (g.IsInner resources) a b →
      order.idxOf b < order.idxOf a := by
    intro b hab
    induction hab with
    | single hab => exact hlt hab
    | tail _ hbc ih => exact Nat.lt_trans (hlt hbc) ih
  exact fun haa => Nat.lt_irrefl _ (hfalls haa)

/-- What is reported where there is no order is a simple cycle. -/
theorem isSimpleIn_of_order {resources : List Text} {cycle : Cycle}
    (h : g.order resources = .error cycle) : cycle.IsSimpleIn g (.ofList resources) := by
  have hanswers := g.answers_order resources
  rwa [h] at hanswers

/-- **There is an order exactly if there is no cycle.**  The search fails if and only if the edges
between the members of a list contain a cycle.  Otherwise it lists every member once and nothing
else, and the target of every edge between members comes strictly before the source. -/
theorem order_fails_iff_cyclic_and_lists_targets_first (g : Graph) (resources : List Text) :
    ((∃ cycle, g.order resources = .error cycle) ↔
      ∃ a, Relation.TransGen (g.IsInner resources) a a) ∧
    ∀ order, g.order resources = .ok order →
      order.Nodup ∧ (∀ a, a ∈ order ↔ a ∈ resources) ∧
      ∀ s t, g.IsInner resources s t → order.idxOf t < order.idxOf s := by
  have hinner : g.IsInner (SortedSet.ofList resources).toList = g.IsInner resources := by
    funext s t
    simp only [IsInner, ← SortedSet.mem_def, SortedSet.mem_ofList]
  refine ⟨⟨?_, ?_⟩, fun order h => ?_⟩
  · rintro ⟨cycle, h⟩
    exact ⟨cycle.resource, hinner ▸ (isSimpleIn_of_order h).transGen⟩
  · rintro ⟨a, ha⟩
    cases h : g.order resources with
    | error cycle => exact ⟨cycle, rfl⟩
    | ok order => exact absurd ha (acyclic_of_order h a)
  · obtain ⟨hnodup, hmem⟩ := nodup_and_mem_of_order h
    exact ⟨hnodup, hmem, fun s t hst => idxOf_lt_of_order h hst.2.1 hst.2.2 hst.1⟩

/-- Three members in a row, one of them named twice, and a cycle that leaves the list. -/
theorem order_of_three_in_a_row :
    let g := Graph.empty.insertAll [⟨"A", "B"⟩, ⟨"B", "C"⟩, ⟨"C", "X"⟩, ⟨"X", "A"⟩]
    let resources : List Text := ["C", "A", "B", "A"]
    let order : List Text := ["C", "B", "A"]
    g.order resources = .ok order ∧ order.Nodup ∧ (∀ a, a ∈ order ↔ a ∈ resources) ∧
      ∀ s t, g.IsInner resources s t → order.idxOf t < order.idxOf s := by
  intro g resources order
  have h : g.order resources = .ok order := by cbv
  exact ⟨h, (order_fails_iff_cyclic_and_lists_targets_first g resources).2 order h⟩

/-- **A cycle that is reported is one.**  It begins and ends at the resource at which the search
found it; the names between are different from each other and from the resource; all of them are
members of the list; and an edge leads from each name to the next. -/
theorem order_reports_cycle {resources : List Text} {cycle : Cycle}
    (h : g.order resources = .error cycle) :
    ∃ inner, cycle.path = cycle.resource :: inner ++ [cycle.resource] ∧
      inner.Nodup ∧ cycle.resource ∉ inner ∧ (∀ s ∈ cycle.path, s ∈ resources) ∧
      cycle.path.IsChain fun s t => g.has s t = true := by
  have hsimple := isSimpleIn_of_order h
  have hmem : ∀ s ∈ cycle.path, s ∈ resources := fun s hs =>
    SortedSet.mem_ofList.mp (hsimple.subset s hs)
  obtain ⟨inner, hpath, hway, hchain⟩ := hsimple
  obtain ⟨hnot, hnodup⟩ := List.nodup_cons.mp hway.nodup
  exact ⟨inner, hpath, hnodup, hnot, hmem, hchain⟩

/-- The cycle begins in the middle of the path, behind a member that is left, and beside one that
was listed before. -/
theorem order_reports_cycle_of_branching :
    let g := Graph.empty.insertAll
      [⟨"A", "B"⟩, ⟨"A", "C"⟩, ⟨"C", "B"⟩, ⟨"C", "D"⟩, ⟨"D", "X"⟩, ⟨"D", "E"⟩, ⟨"E", "C"⟩]
    let resources : List Text := ["E", "D", "C", "B", "A"]
    let cycle : Cycle := ⟨"C", ["C", "D", "E", "C"]⟩
    g.order resources = .error cycle ∧
      ∃ inner, cycle.path = cycle.resource :: inner ++ [cycle.resource] ∧
        inner.Nodup ∧ cycle.resource ∉ inner ∧ (∀ s ∈ cycle.path, s ∈ resources) ∧
        cycle.path.IsChain fun s t => g.has s t = true := by
  intro g resources cycle
  have h : g.order resources = .error cycle := by cbv
  exact ⟨h, order_reports_cycle h⟩

end CloudTemplate.Graph
