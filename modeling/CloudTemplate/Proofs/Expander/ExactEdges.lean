import CloudTemplate.Expander.Document
import CloudTemplate.Proofs.Expander.Mentions
import CloudTemplate.Proofs.Graph.Listings

/-!
# The edges of an expanded template

A successful expansion of a template adds just the edges that the resources of the template ask for
by what they mention.  Metadata, conditions and outputs are walked through too, but at locations
that are in no resource, and so nothing is noted there.

## Main results

* `Expander.has_graph_resolveTemplate`: the graph afterwards has the edges that it had and those
  that the template asks for.  It depends on the names of pseudo-parameters, parameters and
  resources only, not on the values of parameters, the outcomes of conditions and known attributes.
-/

namespace CloudTemplate

/-! ### Deployments with the same names -/

/-- The same names are those of pseudo-parameters, parameters and resources. -/
structure Deployment.SameNames (d d' : Deployment) : Prop where
  isPseudo : ∀ name, d.isPseudo name = d'.isPseudo name
  isParameter : ∀ name, d.isParameter name = d'.isParameter name
  listsResources : d.listsResources = d'.listsResources
  declaresResource : ∀ name, d.declaresResource name = d'.declaresResource name

namespace Deployment.SameNames

variable {d d' : Deployment}

theorem isTarget_iff (h : d.SameNames d') {name : Text} : d.IsTarget name ↔ d'.IsTarget name := by
  rw [Deployment.isTarget_iff, Deployment.isTarget_iff, isResource, isResource, h.isPseudo,
    h.isParameter, h.listsResources, h.declaresResource]

/-- The outcome of a condition is not the name of anything. -/
theorem setCondition (d : Deployment) (name : Text) (b : Bool) :
    d.SameNames (d.setCondition name b) :=
  ⟨fun _ => rfl, fun _ => rfl, rfl, fun _ => rfl⟩

theorem setAttribute (d : Deployment) (resource attr : Text) (v : Value) :
    d.SameNames (d.setAttribute resource attr v) :=
  ⟨fun _ => rfl, fun _ => rfl, rfl, fun _ => rfl⟩

/-- Another value of a parameter does not make it another parameter. -/
theorem setParameter {name : Text} (h : d.isParameter name = true) (v : Value) :
    d.SameNames (d.setParameter name v) := by
  refine ⟨fun _ => rfl, fun other => ?_, rfl, fun _ => rfl⟩
  have hset : (d.setParameter name v).isParameter other =
      ((d.parameters.set name v).has other || d.declaresParameter other) := rfl
  by_cases hother : other = name
  · rw [hset, hother, h, Fields.has, Fields.get?_set_self, Option.isSome_some, Bool.true_or]
  · rw [hset, Fields.has, Fields.get?_set_of_ne _ _ hother]
    rfl

end Deployment.SameNames

/-! ### What a template asks for -/

/-- An attribute of a resource in which calls are evaluated mentions a name in one of its
entries. -/
def MentionsInAttribute (name : Text) (field : Text × Value) : Prop :=
  field.1 ∈ Expander.evaluatedAttributes ∧
    ∃ entries, field.2 = .map entries ∧ ∃ entry ∈ entries, Mentions name entry.2

/-- A resource mentions a name in one of its attributes. -/
def MentionsInResource (name : Text) (v : Value) : Prop :=
  ∃ attributes, v = .map attributes ∧ ∃ field ∈ attributes, MentionsInAttribute name field

/-- A template asks for an edge: the source is a resource that mentions the target, and the target
is the name of a resource. -/
def Template.AsksFor (t : Template) (d : Deployment) (edge : Edge) : Prop :=
  ∃ resource ∈ t.resources.getD [], resource.1 = edge.source ∧ d.IsTarget edge.target ∧
    MentionsInResource edge.target resource.2

theorem Template.asksFor_congr {t : Template} {d d' : Deployment} (h : d.SameNames d')
    {edge : Edge} : t.AsksFor d edge ↔ t.AsksFor d' edge := by
  rw [AsksFor, AsksFor, h.isTarget_iff]

namespace Location

/-- The resource to which the attributes of a resource belong as far as their locations tell: what
stands before the first dot of its name, unless that is empty. -/
def owner? (name : Text) : Option Text :=
  if (Text.before '.' name).isEmpty then none else some (Text.before '.' name)

theorem owner?_of_not_mem {name : Text} (hname : name ≠ []) (hdot : CodePoint.char '.' ∉ name) :
    owner? name = some name := by
  have hbefore : Text.before '.' name = name := by
    rw [← Text.before_append_separator _ name [], Text.before_append hdot]
  rw [owner?, hbefore, if_neg (by simpa using hname)]

theorem eq_before_of_owner? {name owner : Text} (h : owner? name = some owner) :
    owner = Text.before '.' name := by
  rw [owner?] at h
  split at h
  · nomatch h
  · exact (Option.some.inj h).symm

theorem resource?_of_mark (name more : Text) :
    resource? ⟨resourceMark ++ (name ++ CodePoint.char '.' :: more)⟩ = owner? name := by
  have hstart : Text.startsWith resourceMark
      (resourceMark ++ (name ++ CodePoint.char '.' :: more)) = true :=
    List.isPrefixOf_iff_prefix.mpr (List.prefix_append _ _)
  simp only [resource?, hstart, if_true, List.drop_left, Text.before_append_separator, owner?]

/-- The attributes of a resource are in what its locations tell to be the resource. -/
theorem isIn_owner? (name key : Text) :
    (((root.entry "Resources").entry name).entry key).IsIn (owner? name) := by
  intro more
  have htext : (((root.entry "Resources").entry name).entry key).text ++ more =
      resourceMark ++ (name ++ CodePoint.char '.' :: (key ++ more)) := by
    change (resourceMark ++ name ++ [CodePoint.char '.'] ++ key) ++ more = _
    simp only [List.append_assoc, List.cons_append, List.nil_append]
  rw [htext, resource?_of_mark]

/-- The attributes of a resource are in the resource if its name can be read off a location. -/
theorem isIn_attribute {name : Text} (hname : name ≠ []) (hdot : CodePoint.char '.' ∉ name)
    (key : Text) : (((root.entry "Resources").entry name).entry key).IsIn (some name) :=
  owner?_of_not_mem hname hdot ▸ isIn_owner? name key

/-- A location that begins with another letter than the resources is in none. -/
theorem isIn_none {l : Location} {first : CodePoint} {rest : Text} (htext : l.text = first :: rest)
    (hfirst : first ≠ CodePoint.char 'R') : l.IsIn none := by
  intro more
  obtain ⟨tail, hmark⟩ : ∃ tail, resourceMark = CodePoint.char 'R' :: tail := ⟨_, rfl⟩
  have hstart : Text.startsWith resourceMark (l.text ++ more) = false := by
    rw [htext, List.cons_append, hmark, Text.startsWith, List.isPrefixOf,
      beq_false_of_ne (Ne.symm hfirst), Bool.false_and]
  rw [resource?, if_neg (by simp [hstart])]

end Location

namespace Expander

open Intrinsic (Error)

variable {e : Expander} {l : Location} {edge : Edge}

/-! ### Resources -/

/-- Expand one attribute of a resource that stands at a location. -/
def expandAttribute (e : Expander) (l : Location) (key : Text) : Value → Recorded Edge Error Value
  | .map entries =>
    if evaluatedAttributes.contains key then .map <$> e.evaluateEntries (l.entry key) entries
    else pure (.map entries)
  | v => pure (if key = "DependsOn" then e.renameDependsOn v else v)

theorem expandAttributes_cons (key : Text) (v : Value) (rest : List (Text × Value)) :
    e.expandAttributes l ((key, v) :: rest) =
      e.expandAttribute l key v >>= fun v => List.cons (key, v) <$> e.expandAttributes l rest := by
  simp only [map_eq_pure_bind]
  cases v with
  | map entries =>
    rw [expandAttributes, expandAttribute]
    split <;> rfl
  | null | bool | int | double | string | list => rw [expandAttributes, expandAttribute] <;> simp

theorem expandAttributes_cons_eq_ok {field : Text × Value} {rest done : List (Text × Value)} :
    (e.expandAttributes l (field :: rest)).result = .ok done ↔
      ∃ v others, (e.expandAttribute l field.1 field.2).result = .ok v ∧
        (e.expandAttributes l rest).result = .ok others ∧ done = (field.1, v) :: others := by
  rw [expandAttributes_cons]
  exact Recorded.result_bind_map_eq_ok

section Resources

variable (hr : e.renames = []) (hp : e.placeholders = .empty)
include hr hp

theorem mem_notes_expandAttribute {resource : Option Text} {key : Text} {v done : Value}
    (hl : (l.entry key).IsIn resource) (hok : (e.expandAttribute l key v).result = .ok done) :
    edge ∈ (e.expandAttribute l key v).notes ↔
      e.IsEdgeTo resource (MentionsInAttribute · (key, v)) edge := by
  have hother (h : ∀ entries, v = .map entries → key ∉ evaluatedAttributes) :
      ¬ e.IsEdgeTo resource (MentionsInAttribute · (key, v)) edge :=
    not_isEdgeTo fun name ⟨hkey, entries, hv, _⟩ => h entries hv hkey
  unfold expandAttribute at hok ⊢
  split at hok
  · next entries =>
    by_cases hkey : key ∈ evaluatedAttributes
    · rw [if_pos (List.contains_iff_mem.mpr hkey)] at hok ⊢
      rw [Recorded.result_map] at hok
      obtain ⟨evaluated, hok, -⟩ := map_eq_ok.mp hok
      rw [Recorded.notes_map,
        mem_notes_evaluateEntries (fun entry _ => mem_notes_evaluate hr hp entry.2) hl hok]
      exact isEdgeTo_congr fun name =>
        ⟨fun h => ⟨hkey, entries, rfl, h⟩, fun ⟨_, _, hv, h⟩ => Value.map.inj hv ▸ h⟩
    · rw [if_neg (fun h => hkey (List.contains_iff_mem.mp h))]
      exact iff_of_false List.not_mem_nil (hother fun _ _ => hkey)
  · next hv =>
    exact iff_of_false List.not_mem_nil (hother fun entries h => absurd h (hv entries))

theorem mem_notes_expandAttributes {resource : Option Text} {attributes done : List (Text × Value)}
    (hl : ∀ key, (l.entry key).IsIn resource)
    (hok : (e.expandAttributes l attributes).result = .ok done) :
    edge ∈ (e.expandAttributes l attributes).notes ↔
      e.IsEdgeTo resource (fun name => ∃ field ∈ attributes, MentionsInAttribute name field)
        edge := by
  induction attributes generalizing done with
  | nil =>
    rw [expandAttributes]
    exact iff_of_false List.not_mem_nil (not_isEdgeTo (by simp))
  | cons field rest ih =>
    obtain ⟨v, others, hv, hrest, -⟩ := expandAttributes_cons_eq_ok.mp hok
    rw [expandAttributes_cons, Recorded.bind_notes_ok hv, List.mem_append, Recorded.notes_map,
      mem_notes_expandAttribute hr hp (hl field.1) hv, ih hrest, ← isEdgeTo_or]
    exact isEdgeTo_congr fun name => by simp only [List.mem_cons, exists_eq_or_imp]

theorem mem_notes_expandResource {name : Text} {v done : Value}
    (hok : (e.expandResource name v).result = .ok done) :
    edge ∈ (e.expandResource name v).notes ↔
      e.IsEdgeTo (Location.owner? name) (MentionsInResource · v) edge := by
  unfold expandResource at hok ⊢
  split at hok
  · next attributes =>
    rw [Recorded.result_map] at hok
    obtain ⟨evaluated, hok, -⟩ := map_eq_ok.mp hok
    rw [Recorded.notes_map, mem_notes_expandAttributes hr hp (Location.isIn_owner? name) hok]
    exact isEdgeTo_congr fun name =>
      ⟨fun h => ⟨attributes, rfl, h⟩, fun ⟨_, hv, h⟩ => Value.map.inj hv ▸ h⟩
  · next hv =>
    exact iff_of_false List.not_mem_nil
      (not_isEdgeTo fun name ⟨attributes, h, _⟩ => hv attributes h)

theorem mem_notes_expandResources {resources : List (Text × Value)} {before done : Fields Value}
    (hok : (e.expandResources before resources).result = .ok done) :
    edge ∈ (e.expandResources before resources).notes ↔
      ∃ resource ∈ resources,
        e.IsEdgeTo (Location.owner? resource.1) (MentionsInResource · resource.2) edge := by
  induction resources generalizing before with
  | nil =>
    rw [expandResources]
    exact iff_of_false List.not_mem_nil (by simp)
  | cons resource rest ih =>
    rw [expandResources, newName_of_renames_nil hr] at hok ⊢
    obtain ⟨v, hv, hrest⟩ := Recorded.result_bind_eq_ok.mp hok
    rw [Recorded.bind_notes_ok hv, List.mem_append, mem_notes_expandResource hr hp hv, ih hrest]
    simp only [List.mem_cons, exists_eq_or_imp]

end Resources

/-! ### The other sections -/

theorem notes_expandExport (h : l.IsIn none) (entries : Fields Value) :
    (e.expandExport l entries).notes = [] := by
  unfold expandExport
  split
  · rfl
  · exact Recorded.notes_bind_eq_nil (notes_evaluate_eq_nil (h.entry _) _) fun _ => rfl

theorem notes_expandOutputAttributes (h : l.IsIn none) (attributes : List (Text × Value)) :
    (e.expandOutputAttributes l attributes).notes = [] := by
  induction attributes with
  | nil =>
    rw [expandOutputAttributes]
    rfl
  | cons field rest ih =>
    have hrest : ∀ expanded : List (Text × Value),
        (do return expanded ++ (← e.expandOutputAttributes l rest)).notes = [] :=
      fun expanded => Recorded.notes_bind_eq_nil ih fun _ => rfl
    obtain ⟨key, v⟩ := field
    unfold expandOutputAttributes
    split
    · refine Recorded.notes_bind_eq_nil ?_ hrest
      rw [Recorded.notes_map, notes_evaluate_eq_nil (h.entry key)]
    · split
      · split
        · refine Recorded.notes_bind_eq_nil ?_ fun _ => hrest _
          exact notes_expandExport (h.entry key) _
        · exact Recorded.notes_bind_eq_nil rfl hrest
      · exact Recorded.notes_bind_eq_nil rfl hrest

/-- Nothing is noted in the outputs. -/
theorem notes_expandOutputs (outputs : List (Text × Value)) :
    (e.expandOutputs outputs).notes = [] := by
  induction outputs with
  | nil =>
    rw [expandOutputs]
    rfl
  | cons output rest ih =>
    obtain ⟨name, v⟩ := output
    have hl : ((Location.root.entry "Outputs").entry name).IsIn none :=
      (Location.isIn_none (l := Location.root.entry "Outputs") rfl (by decide)).entry name
    cases v with
    | map attributes =>
      rw [expandOutputs]
      exact Recorded.notes_bind_eq_nil (notes_expandOutputAttributes hl attributes)
        fun _ => Recorded.notes_bind_eq_nil ih fun _ => rfl
    | null | bool | int | double | string | list =>
      rw [expandOutputs]
      · exact Recorded.notes_bind_eq_nil ih fun _ => rfl
      · simp

theorem notes_expandSection_eq_nil
    {expand : Fields Value → Recorded Edge Error (Fields Value)}
    (h : ∀ entries, (expand entries).notes = []) (section? : Option (Fields Value)) :
    (expandSection expand section?).notes = [] := by
  cases section? with
  | none => rfl
  | some entries => rw [expandSection, Recorded.notes_map, h]

/-- Only what stands in the resources is noted. -/
theorem notes_expand {t done : Template} (hok : (e.expand t).result = .ok done) :
    ∃ resources, (expandSection (e.expandResources []) t.resources).result = .ok resources ∧
      (e.expand t).notes = (expandSection (e.expandResources []) t.resources).notes := by
  have hmetadata : (expandSection (e.evaluateEntries (sectionLocation .metadata))
      t.metadata).notes = [] :=
    notes_expandSection_eq_nil
      (notes_evaluateEntries_eq_nil (Location.isIn_none rfl (by decide))) t.metadata
  have hconditions : (expandSection (e.evaluateEntries (sectionLocation .conditions))
      t.conditions).notes = [] :=
    notes_expandSection_eq_nil
      (notes_evaluateEntries_eq_nil (Location.isIn_none rfl (by decide))) t.conditions
  have houtputs : (expandSection e.expandOutputs t.outputs).notes = [] :=
    notes_expandSection_eq_nil notes_expandOutputs t.outputs
  unfold expand at hok ⊢
  obtain ⟨metadata, hm, hok⟩ := Recorded.result_bind_eq_ok.mp hok
  obtain ⟨conditions, hc, hok⟩ := Recorded.result_bind_eq_ok.mp hok
  obtain ⟨resources, hr, hok⟩ := Recorded.result_bind_eq_ok.mp hok
  obtain ⟨outputs, ho, hok⟩ := Recorded.result_bind_eq_ok.mp hok
  refine ⟨resources, hr, ?_⟩
  rw [Recorded.bind_notes_ok hm, Recorded.bind_notes_ok hc, Recorded.bind_notes_ok hr,
    Recorded.bind_notes_ok ho, hmetadata, hconditions, houtputs, Recorded.notes_pure,
    List.append_nil, List.append_nil, List.nil_append, List.nil_append]

/-- What an expansion notes is what the resources mention. -/
theorem mem_notes_expand (hr : e.renames = []) (hp : e.placeholders = .empty) {t done : Template}
    (hok : (e.expand t).result = .ok done) :
    edge ∈ (e.expand t).notes ↔ ∃ resource ∈ t.resources.getD [],
      e.IsEdgeTo (Location.owner? resource.1) (MentionsInResource · resource.2) edge := by
  obtain ⟨_, hok, hnotes⟩ := notes_expand hok
  rw [hnotes]
  cases hresources : t.resources with
  | none => simp [expandSection]
  | some resources =>
    rw [hresources, expandSection, Recorded.result_map] at hok
    obtain ⟨expanded, hok, -⟩ := map_eq_ok.mp hok
    rw [expandSection, Recorded.notes_map, mem_notes_expandResources hr hp hok, Option.getD_some]

/-- If the names of the resources can be read off locations, that is what the template asks for. -/
theorem mem_notes_expand_iff_asksFor (hr : e.renames = []) (hp : e.placeholders = .empty)
    {t done : Template}
    (hnames : ∀ name ∈ t.resourceNames, name ≠ [] ∧ CodePoint.char '.' ∉ name)
    (hok : (e.expand t).result = .ok done) :
    edge ∈ (e.expand t).notes ↔ t.AsksFor e.deployment edge := by
  rw [mem_notes_expand hr hp hok, Template.AsksFor]
  refine exists_congr fun resource => and_congr_right fun hresource => ?_
  obtain ⟨hname, hdot⟩ := hnames _ (List.mem_map_of_mem hresource)
  rw [IsEdgeTo, Location.owner?_of_not_mem hname hdot, Option.some.injEq]

theorem has_graph_of_resolveTemplate (hr : e.renames = []) (hp : e.placeholders = .empty)
    {t : Template} (hnames : ∀ name ∈ t.resourceNames, name ≠ [] ∧ CodePoint.char '.' ∉ name)
    {document : Value} (hok : (e.resolveTemplate t).1 = .ok document) {source target : Text} :
    (e.resolveTemplate t).2.graph.has source target = true ↔
      e.graph.has source target = true ∨ t.AsksFor e.deployment ⟨source, target⟩ := by
  rw [resolveTemplate, keep, Recorded.result_map] at hok
  obtain ⟨done, hok, -⟩ := map_eq_ok.mp hok
  rw [resolveTemplate, keep, Recorded.notes_map]
  exact Graph.has_insertAll.trans
    (or_congr_right (mem_notes_expand_iff_asksFor hr hp hnames hok))

/-- **The graph is just what it was and what the template asks for.**  Take an expander without new
names and placeholders, and a template in which the names of resources are not empty and hold no
dot.  If the expansion succeeds, the graph has the edges that it had and those that the template
asks for.  Any other expander for which the same names are those of pseudo-parameters, parameters
and resources comes from the same graph to the same graph if it succeeds too: values of parameters,
outcomes of conditions, known attributes and handlers make no difference. -/
theorem has_graph_resolveTemplate (hr : e.renames = []) (hp : e.placeholders = .empty)
    {t : Template} (hnames : ∀ name ∈ t.resourceNames, name ≠ [] ∧ CodePoint.char '.' ∉ name)
    {document : Value} (hok : (e.resolveTemplate t).1 = .ok document) :
    (∀ source target, (e.resolveTemplate t).2.graph.has source target = true ↔
      e.graph.has source target = true ∨ t.AsksFor e.deployment ⟨source, target⟩) ∧
    ∀ (other : Expander) (document : Value), other.graph = e.graph → other.renames = [] →
      other.placeholders = .empty → e.deployment.SameNames other.deployment →
      (other.resolveTemplate t).1 = .ok document →
      (other.resolveTemplate t).2.graph = (e.resolveTemplate t).2.graph := by
  refine ⟨fun _ _ => has_graph_of_resolveTemplate hr hp hnames hok, ?_⟩
  intro other document hgraph hr' hp' hsame hok'
  refine Graph.ext_has fun source target => ?_
  rw [Bool.eq_iff_iff, has_graph_of_resolveTemplate hr' hp' hnames hok',
    has_graph_of_resolveTemplate hr hp hnames hok, hgraph, Template.asksFor_congr hsame]

/-- A resource with a conditional, both branches of which refer to another one, and with a call that
is left to the deployment.  The graph is the same when the outcome of the condition is known. -/
theorem has_graph_resolveTemplate_of_conditional :
    let queue : Value := .call Intrinsic.ref (.string "Queue")
    let topic : Value := .call Intrinsic.getAtt (.ofStrings ["Topic", "Arn"])
    let role : Value := .call Intrinsic.importValue (.call Intrinsic.ref (.string "Role"))
    let rule (target : Value) : Fields Value :=
      [("Rule", .map [("Properties", .map [("Target", target), ("Role", role)])])]
    let conditional : Value := .call Intrinsic.ifElse (.list [.string "Big", queue, topic])
    let t : Template := { resources := some (rule conditional) }
    let e : Expander := {}
    let other : Expander := { deployment := e.deployment.setCondition "Big" true }
    (∀ name ∈ t.resourceNames, name ≠ [] ∧ CodePoint.char '.' ∉ name) ∧
      (e.resolveTemplate t).1 = .ok (.map [("Resources", .map (rule conditional))]) ∧
      (other.resolveTemplate t).1 = .ok (.map [("Resources", .map (rule queue))]) ∧
      (e.resolveTemplate t).2.graph.has "Rule" "Topic" = true ∧
      (e.resolveTemplate t).2.graph.has "Rule" "Role" = false ∧
      (other.resolveTemplate t).2.graph = (e.resolveTemplate t).2.graph := by
  intro queue topic role rule conditional t e other
  have hnames : ∀ name ∈ t.resourceNames, name ≠ [] ∧ CodePoint.char '.' ∉ name := by decide
  have hok : (e.resolveTemplate t).1 = .ok (.map [("Resources", .map (rule conditional))]) := by
    decide +kernel
  have hok' : (other.resolveTemplate t).1 = .ok (.map [("Resources", .map (rule queue))]) := by
    decide +kernel
  have hgraph := (has_graph_resolveTemplate rfl rfl hnames hok).2 other _ rfl rfl rfl
    (Deployment.SameNames.setCondition e.deployment "Big" true) hok'
  exact ⟨hnames, hok, hok', by decide +kernel, by decide +kernel, hgraph⟩

end Expander

end CloudTemplate
