import CloudTemplate.Expander.Session
import CloudTemplate.Proofs.Expander.ExactEdges

/-!
# The edges that a session records

The expander of a session only ever adds edges to its graph.  What a step adds is the edge of some
call (`Expander.records_after`), also if the step fails, and such an edge is *well-formed*: it
goes from the name of a resource, as far as the location tells, to a declared resource or an alias
that is neither a pseudo-parameter nor a declared parameter.  The template of the deployment stays
the same and aliases are only added, so a well-formed edge stays well-formed whatever becomes known
later.

## Main results

* `Expander.HasWellFormedEdges.after`: a step keeps all edges well-formed.
* `Expander.wellFormed_edges_afterAll`: the edges after a whole session, and after each step of it.
-/

namespace CloudTemplate

/-! ### Well-formed edges -/

/-- An edge that makes sense for a deployment: the source can be the name of a resource in a
location, and the target is a declared resource or an alias, but neither reserved for a
pseudo-parameter nor a declared parameter. -/
structure Edge.IsWellFormed (d : Deployment) (edge : Edge) : Prop where
  source_ne_nil : edge.source ≠ []
  dot_not_mem_source : CodePoint.char '.' ∉ edge.source
  target_ne_nil : edge.target ≠ []
  declared : d.declaresResource edge.target = true
  not_marked : Text.startsWith Pseudo.mark edge.target = false
  not_parameter : d.declaresParameter edge.target = false

/-- What is declared later declares what was declared before: the template is the same, and no alias
is gone. -/
structure Deployment.KeepsDeclarations (d d' : Deployment) : Prop where
  template : d'.template = d.template
  aliases : ∀ name ∈ d.aliases, name ∈ d'.aliases

namespace Deployment.KeepsDeclarations

variable {d d' d'' : Deployment}

theorem refl (d : Deployment) : d.KeepsDeclarations d :=
  ⟨rfl, fun _ h => h⟩

theorem trans (h : d.KeepsDeclarations d') (h' : d'.KeepsDeclarations d'') :
    d.KeepsDeclarations d'' :=
  ⟨h'.template.trans h.template, fun name hname => h'.aliases name (h.aliases name hname)⟩

theorem listsResources_eq (h : d.KeepsDeclarations d') : d'.listsResources = d.listsResources := by
  rw [listsResources, listsResources, h.template]

theorem isWellFormed (h : d.KeepsDeclarations d') {edge : Edge} (hedge : edge.IsWellFormed d) :
    edge.IsWellFormed d' where
  source_ne_nil := hedge.source_ne_nil
  dot_not_mem_source := hedge.dot_not_mem_source
  target_ne_nil := hedge.target_ne_nil
  declared := by
    have hdeclared := hedge.declared
    rw [declaresResource, Bool.or_eq_true, decide_eq_true_iff] at hdeclared ⊢
    exact hdeclared.imp (h.aliases _) fun hresource => by rw [h.template]; exact hresource
  not_marked := hedge.not_marked
  not_parameter := by
    rw [declaresParameter, h.template]
    exact hedge.not_parameter

end Deployment.KeepsDeclarations

/-- The resource to which a location belongs has a name without dots. -/
theorem Location.ne_nil_and_dot_not_mem_of_resource? {l : Location} {name : Text}
    (h : l.resource? = some name) : name ≠ [] ∧ CodePoint.char '.' ∉ name := by
  unfold resource? at h
  split at h
  · dsimp only at h
    split at h
    · cases h
    · next hne =>
      obtain rfl := Option.some.inj h
      exact ⟨fun hnil => hne (List.isEmpty_iff.mpr hnil), Text.separator_not_mem_before _ _⟩
  · cases h

namespace Expander

open Intrinsic (Error)

variable {e : Expander} {l : Location} {edge : Edge}

/-- If there is a list of resources, the edge of a call is well-formed. -/
theorem isWellFormed_of_isNotedBelow (hlists : e.deployment.listsResources = true)
    (h : e.IsNotedBelow l edge) : edge.IsWellFormed e.deployment := by
  obtain ⟨more, function, argument, hedge⟩ := h
  obtain ⟨hsource, htarget, -⟩ := edge?_eq_some_iff.mp hedge
  obtain ⟨hne, hdot⟩ := Location.ne_nil_and_dot_not_mem_of_resource? hsource
  exact {
    source_ne_nil := hne
    dot_not_mem_source := hdot
    target_ne_nil := htarget.ne_nil
    declared := htarget.declared hlists
    not_marked := (Bool.or_eq_false_iff.mp htarget.not_pseudo).1
    not_parameter := (Bool.or_eq_false_iff.mp htarget.not_parameter).2 }

/-! ### What an expansion notes, also if it fails -/

theorem isNotedBelow_of_mem_expandAttribute {key : Text} {v : Value}
    (hmem : edge ∈ (e.expandAttribute l key v).notes) : e.IsNotedBelow l edge := by
  unfold expandAttribute at hmem
  split at hmem
  · split at hmem
    · rw [Recorded.notes_map] at hmem
      exact (isNotedBelow_of_mem_entries
        (fun entry _ => e.isNotedBelow_of_mem_evaluate entry.2) hmem).of_entry
    · cases hmem
  · cases hmem

theorem isNotedBelow_of_mem_expandAttributes {attributes : List (Text × Value)}
    (hmem : edge ∈ (e.expandAttributes l attributes).notes) : e.IsNotedBelow l edge := by
  induction attributes with
  | nil =>
    rw [expandAttributes] at hmem
    cases hmem
  | cons field rest ih =>
    rw [expandAttributes_cons, Recorded.mem_notes_bind] at hmem
    rcases hmem with hmem | ⟨v, -, hmem⟩
    · exact isNotedBelow_of_mem_expandAttribute hmem
    · rw [Recorded.notes_map] at hmem
      exact ih hmem

/-- All places are below the root. -/
theorem IsNotedBelow.root (h : e.IsNotedBelow l edge) : e.IsNotedBelow Location.root edge :=
  h.of_text_eq rfl

theorem isNotedBelow_of_mem_expandResources {resources : List (Text × Value)}
    {done : Fields Value} (hmem : edge ∈ (e.expandResources done resources).notes) :
    e.IsNotedBelow Location.root edge := by
  induction resources generalizing done with
  | nil =>
    rw [expandResources] at hmem
    cases hmem
  | cons resource rest ih =>
    rw [expandResources, Recorded.mem_notes_bind] at hmem
    rcases hmem with hmem | ⟨v, -, hmem⟩
    · unfold expandResource at hmem
      split at hmem
      · rw [Recorded.notes_map] at hmem
        exact (isNotedBelow_of_mem_expandAttributes hmem).root
      · cases hmem
    · exact ih hmem

theorem exists_of_mem_expandSection {expand : Fields Value → Recorded Edge Error (Fields Value)}
    {section? : Option (Fields Value)} (hmem : edge ∈ (expandSection expand section?).notes) :
    ∃ entries, edge ∈ (expand entries).notes := by
  cases section? with
  | none => cases hmem
  | some entries =>
    rw [expandSection, Recorded.notes_map] at hmem
    exact ⟨entries, hmem⟩

/-- Whatever an expansion notes is the edge of a call. -/
theorem isNotedBelow_of_mem_expand {t : Template} (hmem : edge ∈ (e.expand t).notes) :
    e.IsNotedBelow Location.root edge := by
  have hentries {s : Section} {section? : Option (Fields Value)}
      (hmem : edge ∈ (expandSection (e.evaluateEntries (sectionLocation s)) section?).notes) :
      e.IsNotedBelow Location.root edge := by
    obtain ⟨entries, hmem⟩ := exists_of_mem_expandSection hmem
    exact (isNotedBelow_of_mem_entries
      (fun entry _ => e.isNotedBelow_of_mem_evaluate entry.2) hmem).root
  unfold expand at hmem
  rcases Recorded.mem_notes_bind.mp hmem with hmem | ⟨metadata, -, hmem⟩
  · exact hentries hmem
  rcases Recorded.mem_notes_bind.mp hmem with hmem | ⟨conditions, -, hmem⟩
  · exact hentries hmem
  rcases Recorded.mem_notes_bind.mp hmem with hmem | ⟨resources, -, hmem⟩
  · obtain ⟨entries, hmem⟩ := exists_of_mem_expandSection hmem
    exact isNotedBelow_of_mem_expandResources hmem
  rcases Recorded.mem_notes_bind.mp hmem with hmem | ⟨outputs, -, hmem⟩
  · obtain ⟨entries, hmem⟩ := exists_of_mem_expandSection hmem
    rw [notes_expandOutputs] at hmem
    cases hmem
  · cases hmem

/-! ### One step -/

/-- The second expander has the edges of the first, and apart from these only edges of calls. -/
structure Records (e e' : Expander) : Prop where
  keeps : ∀ source target, e.graph.has source target = true → e'.graph.has source target = true
  adds : ∀ source target, e'.graph.has source target = true →
    e.graph.has source target = true ∨ e.IsNotedBelow Location.root ⟨source, target⟩

theorem records_self (e : Expander) : e.Records e :=
  ⟨fun _ _ => id, fun _ _ => .inl⟩

theorem records_keep {ε α : Type} {x : Recorded Edge ε α}
    (h : ∀ edge ∈ x.notes, e.IsNotedBelow Location.root edge) : e.Records (e.keep x).2 where
  keeps _ _ hedge := Graph.has_insertAll.mpr (.inl hedge)
  adds _ _ hedge := (Graph.has_insertAll.mp hedge).imp_right (h _)

theorem records_resolveTemplate (e : Expander) (t : Template) :
    e.Records (e.resolveTemplate t).2 := by
  refine records_keep fun edge hmem => ?_
  rw [Recorded.notes_map] at hmem
  exact isNotedBelow_of_mem_expand hmem

/-- **What a step records.**  The edges of some calls are added, and none is taken away. -/
theorem records_after (e : Expander) (step : Step) : e.Records (e.after step) := by
  cases step with
  | resolve v l =>
    exact records_keep fun edge hmem => (e.isNotedBelow_of_mem_evaluate v l edge hmem).root
  | expand t => exact e.records_resolveTemplate t
  | expandDocument document =>
    rw [after]
    split
    · exact e.records_resolveTemplate _
    · exact e.records_self
    · exact e.records_self
  | setParameter | setPseudo | setAttribute | setCondition | rename | addPlaceholder =>
    exact ⟨fun _ _ => id, fun _ _ => .inl⟩

/-- No step takes a declaration away. -/
theorem keepsDeclarations_after (e : Expander) (step : Step) :
    e.deployment.KeepsDeclarations (e.after step).deployment := by
  cases step with
  | rename old new => exact ⟨rfl, fun name hname => SortedSet.mem_insert.mpr (.inr hname)⟩
  | expandDocument document =>
    rw [after]
    split <;> exact .refl _
  | resolve | expand | setParameter | setPseudo | setAttribute | setCondition | addPlaceholder =>
    exact ⟨rfl, fun _ hname => hname⟩

/-- All edges of the graph make sense for what is declared. -/
def HasWellFormedEdges (e : Expander) : Prop :=
  ∀ source target, e.graph.has source target = true →
    Edge.IsWellFormed e.deployment ⟨source, target⟩

/-- **A step keeps all edges well-formed.**  The new ones are edges of calls, and the old ones stay
well-formed since nothing that is declared is lost. -/
theorem HasWellFormedEdges.after (h : e.HasWellFormedEdges)
    (hlists : e.deployment.listsResources = true) (step : Step) :
    (e.after step).HasWellFormedEdges := by
  intro source target hedge
  refine (e.keepsDeclarations_after step).isWellFormed ?_
  rcases (e.records_after step).adds source target hedge with hold | hnew
  · exact h source target hold
  · exact isWellFormed_of_isNotedBelow hlists hnew

/-! ### Whole sessions -/

theorem keepsDeclarations_afterAll (e : Expander) (steps : List Step) :
    e.deployment.KeepsDeclarations (e.afterAll steps).deployment := by
  induction steps generalizing e with
  | nil => exact .refl _
  | cons step rest ih => exact (e.keepsDeclarations_after step).trans (ih (e.after step))

theorem HasWellFormedEdges.afterAll (h : e.HasWellFormedEdges)
    (hlists : e.deployment.listsResources = true) (steps : List Step) :
    (e.afterAll steps).HasWellFormedEdges := by
  induction steps generalizing e with
  | nil => exact h
  | cons step rest ih =>
    refine ih (h.after hlists step) ?_
    rw [(e.keepsDeclarations_after step).listsResources_eq, hlists]

theorem hasWellFormedEdges_of_empty (h : e.graph = .empty) : e.HasWellFormedEdges := by
  intro source target hedge
  rw [h, Graph.has_iff] at hedge
  cases hedge

/-- **The edges of a session.**  Take an expander with an empty graph whose template has a list of
resources, and any steps, of which some may fail.  After these steps the template is still the same.
Every edge goes from a name that is not empty and holds no dot to a declared resource or an alias,
whose name is not empty, does not begin with `AWS::` and is not that of a declared parameter; and
whatever step comes next, no edge is lost. -/
theorem wellFormed_edges_afterAll (hlists : e.deployment.listsResources = true)
    (hgraph : e.graph = .empty) (steps : List Step) :
    (e.afterAll steps).deployment.template = e.deployment.template ∧
      (∀ source target, (e.afterAll steps).graph.has source target = true →
        Edge.IsWellFormed (e.afterAll steps).deployment ⟨source, target⟩) ∧
      ∀ step source target, (e.afterAll steps).graph.has source target = true →
        ((e.afterAll steps).after step).graph.has source target = true :=
  ⟨(e.keepsDeclarations_afterAll steps).template,
    (hasWellFormedEdges_of_empty hgraph).afterAll hlists steps,
    fun step => ((e.afterAll steps).records_after step).keeps⟩

/-- A step fails after a reference to a renamed resource was met, and then a parameter gets the new
name.  The edge to that name stays, although no further edge could go there. -/
theorem wellFormed_edges_afterAll_of_failure :
    let t : Template := { resources := some [("Worker", .map []), ("Queue", .map [])] }
    let e : Expander := { deployment := .ofTemplate (some t) }
    let v : Value := .list
      [.call Intrinsic.ref (.string "Queue"), .call Intrinsic.sub (.bool true)]
    let l : Location := ⟨"Resources.Worker.Properties"⟩
    let before : Expander := e.after (.rename "Queue" "Jobs")
    let later : Expander := e.afterAll
      [.rename "Queue" "Jobs", .resolve v l, .setParameter "Jobs" (.int 4)]
    (before.resolve v l).1.isOk = false ∧ later.graph.has "Worker" "Jobs" = true ∧
      later.deployment.isResource "Jobs" = false ∧
      Edge.IsWellFormed later.deployment ⟨"Worker", "Jobs"⟩ := by
  intro t e v l before later
  have hedge : later.graph.has "Worker" "Jobs" = true := by decide +kernel
  obtain ⟨-, hwellFormed, -⟩ := wellFormed_edges_afterAll (e := e) (by decide) rfl
    [.rename "Queue" "Jobs", .resolve v l, .setParameter "Jobs" (.int 4)]
  exact ⟨by decide +kernel, hedge, by decide +kernel, hwellFormed _ _ hedge⟩

end Expander

end CloudTemplate
