import CloudTemplate.Proofs.Expander.RenamedTemplate

/-!
# The parts of a template in which calls are evaluated

`Template.evaluatedParts` lists the values in which an expansion evaluates calls: the entries of the
metadata and conditions, the entries of some attributes of resources, and the values and export
names of outputs.  Whatever holds of all that can be left of the parts of a template holds of the
parts of the expanded template (`Expander.forall_evaluatedParts_expand`).  The lists of dependencies
are not evaluated; without new names they stay as they are (`Expander.mem_dependencies_of_expand`).
-/

namespace CloudTemplate

/-! ### Parts and dependencies -/

namespace Template

/-- The parts of an attribute of a resource. -/
def partsOfAttribute (key : Text) : Value → List Value
  | .map entries =>
    if Expander.evaluatedAttributes.contains key then Fields.values entries else []
  | _ => []

/-- The parts of a resource. -/
def partsOfResource : Value → List Value
  | .map attributes => attributes.flatMap fun field => partsOfAttribute field.1 field.2
  | _ => []

/-- The parts of an attribute of an output. -/
def partsOfOutputAttribute (key : Text) (v : Value) : List Value :=
  if key = "Value" then [v]
  else
    match v with
    | .map entries => if key = "Export" then (Fields.get? entries "Name").toList else []
    | _ => []

/-- The parts of an output. -/
def partsOfOutput : Value → List Value
  | .map attributes => attributes.flatMap fun field => partsOfOutputAttribute field.1 field.2
  | _ => []

/-- The parts of a template in which calls are evaluated. -/
def evaluatedParts (t : Template) : List Value :=
  Fields.values (t.metadata.getD []) ++ Fields.values (t.conditions.getD []) ++
    (t.resources.getD []).flatMap (fun resource => partsOfResource resource.2) ++
    (t.outputs.getD []).flatMap fun output => partsOfOutput output.2

/-- The names in a value that lists dependencies. -/
def dependenciesOf : Value → List Text
  | .string name => [name]
  | .list items => items.filterMap Value.string?
  | _ => []

/-- The names in an attribute of a resource if it lists dependencies. -/
def dependenciesOfAttribute (key : Text) (v : Value) : List Text :=
  if key = "DependsOn" then dependenciesOf v else []

/-- The names in the lists of dependencies of a resource. -/
def dependenciesOfResource : Value → List Text
  | .map attributes =>
    attributes.flatMap fun field => dependenciesOfAttribute field.1 field.2
  | _ => []

/-- The names in all lists of dependencies. -/
def dependencies (t : Template) : List Text :=
  (t.resources.getD []).flatMap fun resource => dependenciesOfResource resource.2

theorem mem_evaluatedParts_of_resource {t : Template} {resource : Text × Value}
    (hresource : resource ∈ t.resources.getD []) {v : Value} (hv : v ∈ partsOfResource resource.2) :
    v ∈ t.evaluatedParts :=
  List.mem_append_left _ (List.mem_append_right _ (List.mem_flatMap.mpr ⟨resource, hresource, hv⟩))

/-- What a resource mentions is mentioned in one of its parts. -/
theorem exists_part_of_mentions {name : Text} {v : Value} (h : MentionsInResource name v) :
    ∃ u ∈ partsOfResource v, Mentions name u := by
  obtain ⟨attributes, rfl, ⟨key, v⟩, hfield, hkey, entries, rfl, entry, hentry, hmentions⟩ := h
  refine ⟨entry.2, List.mem_flatMap.mpr ⟨_, hfield, ?_⟩, hmentions⟩
  rw [partsOfAttribute, if_pos (List.contains_iff_mem.mpr hkey)]
  exact List.mem_map_of_mem hentry

end Template

namespace Expander

open Template
open Intrinsic (Error)

variable {e : Expander} {l : Location} {P : Value → Prop}

/-- Whatever is left of a value, wherever it stands, has a property. -/
def LeavesOnly (e : Expander) (P : Value → Prop) (v : Value) : Prop :=
  ∀ l w, (e.evaluate l v).result = .ok (.value w) → P w

/-! ### With the new names in place -/

theorem values_renamedValues (entries : Fields Value) :
    Fields.values (e.renamedValues entries) = (Fields.values entries).map (e.renamed 0) := by
  rw [Fields.values, renamedValues, Fields.values, List.map_map, List.map_map]
  rfl

theorem partsOfAttribute_of_ne_map (key : Text) {v : Value} (h : ∀ entries, v ≠ .map entries) :
    partsOfAttribute key v = [] := by
  rw [partsOfAttribute]
  exact h

/-- What is no map is none with the new names either. -/
theorem renamedAttribute_ne_map {key : Text} {v : Value} (h : ∀ entries, v ≠ .map entries) :
    ∀ entries, e.renamedAttribute key v ≠ .map entries := by
  rw [renamedAttribute_of_ne_map h]
  split
  · exact renameDependsOn_ne_map h
  · exact h

theorem partsOfAttribute_renamed (key : Text) (v : Value) :
    partsOfAttribute key (e.renamedAttribute key v) =
      (partsOfAttribute key v).map (e.renamed 0) := by
  by_cases hmap : ∃ entries, v = .map entries
  · obtain ⟨entries, rfl⟩ := hmap
    rw [renamedAttribute]
    split
    · next hkey =>
      rw [partsOfAttribute, partsOfAttribute, if_pos hkey, if_pos hkey, values_renamedValues]
    · next hkey => rw [partsOfAttribute, if_neg hkey, List.map_nil]
  · have hne : ∀ entries, v ≠ .map entries := fun entries hv => hmap ⟨entries, hv⟩
    rw [partsOfAttribute_of_ne_map key (renamedAttribute_ne_map hne),
      partsOfAttribute_of_ne_map key hne, List.map_nil]

theorem partsOfResource_renamed (v : Value) :
    partsOfResource (e.renamedResource v) = (partsOfResource v).map (e.renamed 0) := by
  cases v with
  | map attributes =>
    rw [renamedResource, partsOfResource, partsOfResource, List.flatMap_map, List.map_flatMap]
    simp only [partsOfAttribute_renamed]
  | null | bool | int | double | string | list => rfl

theorem partsOfOutputAttribute_value {key : Text} (h : key = "Value") (v : Value) :
    partsOfOutputAttribute key v = [v] :=
  if_pos h

theorem partsOfOutputAttribute_export {key : Text} (h : key = "Export") (entries : Fields Value) :
    partsOfOutputAttribute key (.map entries) = (entries.get? "Name").toList := by
  have hvalue : key ≠ "Value" := h ▸ (by decide)
  exact (if_neg hvalue).trans (if_pos h)

/-- Nothing else than the value and the export of an output has parts. -/
theorem partsOfOutputAttribute_eq_nil {key : Text} {v : Value} (hvalue : key ≠ "Value")
    (hexport : ∀ entries, v = .map entries → key ≠ "Export") :
    partsOfOutputAttribute key v = [] := by
  rw [partsOfOutputAttribute.eq_def, if_neg hvalue]
  split
  · next entries => exact if_neg (hexport entries rfl)
  · rfl

theorem renamedOutputAttribute_eq_self {key : Text} {v : Value} (hvalue : key ≠ "Value")
    (hexport : ∀ entries, v = .map entries → key ≠ "Export") :
    e.renamedOutputAttribute key v = v := by
  rw [renamedOutputAttribute.eq_def, if_neg hvalue]
  split
  · next entries => exact if_neg (hexport entries rfl)
  · rfl

theorem partsOfOutputAttribute_renamed (key : Text) (v : Value) :
    partsOfOutputAttribute key (e.renamedOutputAttribute key v) =
      (partsOfOutputAttribute key v).map (e.renamed 0) := by
  by_cases hvalue : key = "Value"
  · have hrenamed : e.renamedOutputAttribute key v = e.renamed 0 v := if_pos hvalue
    rw [hrenamed, partsOfOutputAttribute_value hvalue, partsOfOutputAttribute_value hvalue,
      List.map_singleton]
  · by_cases hexport : key = "Export" ∧ ∃ entries, v = .map entries
    · obtain ⟨hexport, entries, rfl⟩ := hexport
      have hrenamed : e.renamedOutputAttribute key (.map entries) =
          .map (e.renamedExport entries) := (if_neg hvalue).trans (if_pos hexport)
      rw [hrenamed, partsOfOutputAttribute_export hexport, partsOfOutputAttribute_export hexport,
        get?_renamedExport]
      cases Fields.get? entries "Name" <;> rfl
    · have hother : ∀ entries, v = .map entries → key ≠ "Export" :=
        fun entries hv hkey => hexport ⟨hkey, entries, hv⟩
      rw [renamedOutputAttribute_eq_self hvalue hother, partsOfOutputAttribute_eq_nil hvalue hother,
        List.map_nil]

theorem partsOfOutput_renamed (v : Value) :
    partsOfOutput (e.renamedOutput v) = (partsOfOutput v).map (e.renamed 0) := by
  cases v with
  | map attributes =>
    rw [renamedOutput, partsOfOutput, partsOfOutput, List.flatMap_map, List.map_flatMap]
    simp only [partsOfOutputAttribute_renamed]
  | null | bool | int | double | string | list => rfl

/-- What is found in the entries of a section when each of them is replaced by another one. -/
theorem flatMap_section {α : Type} {f : α → α} {find : Value → List α}
    {g : Text × Value → Text × Value} (section? : Option (Fields Value))
    (h : ∀ entry, find (g entry).2 = (find entry.2).map f) :
    ((section?.map (List.map g)).getD []).flatMap (fun entry => find entry.2) =
      ((section?.getD []).flatMap fun entry => find entry.2).map f := by
  cases section? with
  | none => rfl
  | some entries =>
    rw [Option.map_some, Option.getD_some, Option.getD_some, List.flatMap_map, List.map_flatMap]
    simp only [h]

/-- The parts of a template with the new names are those of the template, each with the new
names. -/
theorem evaluatedParts_renamedTemplate (t : Template) :
    (e.renamedTemplate t).evaluatedParts = t.evaluatedParts.map (e.renamed 0) := by
  have hvalues : ∀ section? : Option (Fields Value),
      Fields.values ((section?.map e.renamedValues).getD []) =
        (Fields.values (section?.getD [])).map (e.renamed 0) := fun section? => by
    cases section? with
    | none => rfl
    | some entries => exact values_renamedValues entries
  rw [evaluatedParts, evaluatedParts, renamedTemplate]
  simp only [List.map_append, hvalues]
  rw [flatMap_section _ fun _ => partsOfResource_renamed _,
    flatMap_section _ fun _ => partsOfOutput_renamed _]

theorem dependenciesOf_renameDependsOn (v : Value) :
    dependenciesOf (e.renameDependsOn v) = (dependenciesOf v).map e.newName := by
  cases v with
  | string s => rfl
  | list items =>
    rw [renameDependsOn, dependenciesOf, dependenciesOf, List.filterMap_map, List.map_filterMap]
    refine congrFun (congrArg List.filterMap (funext fun v => ?_)) items
    cases v <;> rfl
  | null | bool | int | double | map => rfl

theorem dependenciesOfAttribute_renamed (key : Text) (v : Value) :
    dependenciesOfAttribute key (e.renamedAttribute key v) =
      (dependenciesOfAttribute key v).map e.newName := by
  by_cases hkey : key = "DependsOn"
  · have hdependencies : ∀ v, dependenciesOfAttribute key v = dependenciesOf v :=
      fun v => if_pos hkey
    rw [hdependencies, hdependencies]
    by_cases hmap : ∃ entries, v = .map entries
    · obtain ⟨entries, rfl⟩ := hmap
      rw [renamedAttribute]
      split <;> rfl
    · have hne : ∀ entries, v ≠ .map entries := fun entries hv => hmap ⟨entries, hv⟩
      rw [renamedAttribute_of_ne_map hne, if_pos hkey, dependenciesOf_renameDependsOn]
  · have hdependencies : ∀ v, dependenciesOfAttribute key v = [] := fun v => if_neg hkey
    rw [hdependencies, hdependencies, List.map_nil]

theorem dependenciesOfResource_renamed (v : Value) :
    dependenciesOfResource (e.renamedResource v) = (dependenciesOfResource v).map e.newName := by
  cases v with
  | map attributes =>
    rw [renamedResource, dependenciesOfResource, dependenciesOfResource, List.flatMap_map,
      List.map_flatMap]
    simp only [dependenciesOfAttribute_renamed]
  | null | bool | int | double | string | list => rfl

theorem dependencies_renamedTemplate (t : Template) :
    (e.renamedTemplate t).dependencies = t.dependencies.map e.newName := by
  rw [dependencies, dependencies, renamedTemplate,
    flatMap_section _ fun _ => dependenciesOfResource_renamed _]

theorem resourceNames_renamedTemplate (t : Template) :
    (e.renamedTemplate t).resourceNames = e.resourceNames t := by
  rw [Template.resourceNames, resourceNames, Template.resourceNames, renamedTemplate]
  cases t.resources with
  | none => rfl
  | some resources =>
    rw [Option.map_some, Option.getD_some, Option.getD_some, Fields.names, Fields.names,
      List.map_map, List.map_map]
    rfl

/-! ### Each section -/

theorem forall_values_evaluateEntries {entries done : Fields Value}
    (h : ∀ v ∈ Fields.values entries, e.LeavesOnly P v)
    (hok : (e.evaluateEntries l entries).result = .ok done) : ∀ w ∈ Fields.values done, P w :=
  List.forall_mem_map.mpr
    (forall_mem_of_evaluateEntries (fun _ hentry => h _ (List.mem_map_of_mem hentry)) hok)

theorem forall_parts_expandAttribute {key : Text} {v done : Value}
    (h : ∀ u ∈ partsOfAttribute key v, e.LeavesOnly P u)
    (hok : (e.expandAttribute l key v).result = .ok done) :
    ∀ w ∈ partsOfAttribute key done, P w := by
  by_cases hmap : ∃ entries, v = .map entries
  · obtain ⟨entries, rfl⟩ := hmap
    rw [expandAttribute] at hok
    rw [partsOfAttribute] at h
    split at hok
    · next hkey =>
      rw [if_pos hkey] at h
      rw [Recorded.result_map] at hok
      obtain ⟨evaluated, hevaluated, rfl⟩ := map_eq_ok.mp hok
      rw [partsOfAttribute, if_pos hkey]
      exact forall_values_evaluateEntries h hevaluated
    · next hkey =>
      obtain rfl := Except.ok.inj hok
      rw [partsOfAttribute, if_neg hkey]
      exact List.forall_mem_nil _
  · have hne : ∀ entries, v ≠ .map entries := fun entries hv => hmap ⟨entries, hv⟩
    rw [expandAttribute_of_ne_map hne, ← renamedAttribute_of_ne_map hne] at hok
    obtain rfl := Except.ok.inj hok
    rw [partsOfAttribute_of_ne_map key (renamedAttribute_ne_map hne)]
    exact List.forall_mem_nil _

theorem forall_parts_expandAttributes {attributes done : Fields Value}
    (h : ∀ v ∈ partsOfResource (.map attributes), e.LeavesOnly P v)
    (hok : (e.expandAttributes l attributes).result = .ok done) :
    ∀ w ∈ partsOfResource (.map done), P w := by
  induction attributes generalizing done with
  | nil =>
    rw [expandAttributes] at hok
    obtain rfl := Except.ok.inj hok
    exact List.forall_mem_nil _
  | cons field rest ih =>
    rw [partsOfResource, List.flatMap_cons, List.forall_mem_append] at h
    obtain ⟨v, others, hv, hothers, rfl⟩ := expandAttributes_cons_eq_ok.mp hok
    rw [partsOfResource, List.flatMap_cons, List.forall_mem_append]
    exact ⟨forall_parts_expandAttribute h.1 hv, ih h.2 hothers⟩

theorem forall_parts_expandResource {name : Text} {v done : Value}
    (h : ∀ u ∈ partsOfResource v, e.LeavesOnly P u)
    (hok : (e.expandResource name v).result = .ok done) : ∀ w ∈ partsOfResource done, P w := by
  unfold expandResource at hok
  split at hok
  · rw [Recorded.result_map] at hok
    obtain ⟨expanded, hexpanded, rfl⟩ := map_eq_ok.mp hok
    exact forall_parts_expandAttributes h hexpanded
  · next hne =>
    obtain rfl := Except.ok.inj hok
    rw [partsOfResource]
    · exact List.forall_mem_nil _
    · exact hne

/-- The name of an export comes first, and what else is there has another name. -/
theorem forall_name_expandExport {entries done : Fields Value}
    (h : ∀ v ∈ (entries.get? "Name").toList, e.LeavesOnly P v)
    (hok : (e.expandExport l entries).result = .ok done) :
    ∀ w ∈ (done.get? "Name").toList, P w := by
  unfold expandExport at hok
  split at hok
  · next hnone =>
    obtain rfl := Except.ok.inj hok
    rw [hnone]
    exact List.forall_mem_nil _
  · next v hname =>
    rw [hname] at h
    have hothers : Fields.get? (entries.filter fun entry => entry.1 ≠ ("Name" : Text)) "Name" =
        none := by
      rw [Fields.get?_filter entries fun key => key ≠ ("Name" : Text)]
      exact if_neg (by simp)
    obtain ⟨outcome, hv, hok⟩ := Recorded.result_bind_eq_ok.mp hok
    obtain rfl := Except.ok.inj hok
    cases outcome with
    | value w =>
      rw [Outcome.entry, List.singleton_append, Fields.get?_cons, if_pos rfl]
      exact List.forall_mem_singleton.mpr (h v List.mem_cons_self _ w hv)
    | noValue =>
      rw [Outcome.entry, List.nil_append, hothers]
      exact List.forall_mem_nil _

theorem forall_parts_expandOutputAttribute {key : Text} {v : Value} {done : Fields Value}
    (h : ∀ u ∈ partsOfOutputAttribute key v, e.LeavesOnly P u)
    (hok : (e.expandOutputAttribute l key v).result = .ok done) :
    ∀ w ∈ partsOfOutput (.map done), P w := by
  have hsingleton : ∀ v, partsOfOutput (.map [(key, v)]) = partsOfOutputAttribute key v :=
    fun v => List.flatMap_singleton ..
  unfold expandOutputAttribute at hok
  split at hok
  · next hvalue =>
    rw [partsOfOutputAttribute_value hvalue] at h
    rw [Recorded.result_map] at hok
    obtain ⟨outcome, houtcome, rfl⟩ := map_eq_ok.mp hok
    cases outcome with
    | value w =>
      rw [Outcome.entry, hsingleton, partsOfOutputAttribute_value hvalue]
      exact List.forall_mem_singleton.mpr (h v List.mem_cons_self _ w houtcome)
    | noValue => exact List.forall_mem_nil _
  · next hvalue =>
    split at hok
    · next entries =>
      split at hok
      · next hexport =>
        rw [partsOfOutputAttribute_export hexport] at h
        rw [Recorded.result_map] at hok
        obtain ⟨expanded, hexpanded, rfl⟩ := map_eq_ok.mp hok
        rw [hsingleton, partsOfOutputAttribute_export hexport]
        exact forall_name_expandExport h hexpanded
      · next hexport =>
        obtain rfl := Except.ok.inj hok
        rw [hsingleton, partsOfOutputAttribute_eq_nil hvalue fun _ _ => hexport]
        exact List.forall_mem_nil _
    · next hne =>
      obtain rfl := Except.ok.inj hok
      rw [hsingleton, partsOfOutputAttribute_eq_nil hvalue fun entries hv => (hne entries hv).elim]
      exact List.forall_mem_nil _

theorem forall_parts_expandOutputAttributes {attributes done : Fields Value}
    (h : ∀ v ∈ partsOfOutput (.map attributes), e.LeavesOnly P v)
    (hok : (e.expandOutputAttributes l attributes).result = .ok done) :
    ∀ w ∈ partsOfOutput (.map done), P w := by
  induction attributes generalizing done with
  | nil =>
    rw [expandOutputAttributes] at hok
    obtain rfl := Except.ok.inj hok
    exact List.forall_mem_nil _
  | cons field rest ih =>
    rw [partsOfOutput, List.flatMap_cons, List.forall_mem_append] at h
    rw [expandOutputAttributes_cons] at hok
    obtain ⟨expanded, others, hexpanded, hothers, rfl⟩ := Recorded.result_bind_map_eq_ok.mp hok
    rw [partsOfOutput, List.flatMap_append, List.forall_mem_append]
    exact ⟨forall_parts_expandOutputAttribute h.1 hexpanded, ih h.2 hothers⟩

theorem forall_parts_expandOutput {name : Text} {v done : Value}
    (h : ∀ u ∈ partsOfOutput v, e.LeavesOnly P u)
    (hok : (e.expandOutput name v).result = .ok done) : ∀ w ∈ partsOfOutput done, P w := by
  unfold expandOutput at hok
  split at hok
  · rw [Recorded.result_map] at hok
    obtain ⟨expanded, hexpanded, rfl⟩ := map_eq_ok.mp hok
    exact forall_parts_expandOutputAttributes h hexpanded
  · next hne =>
    obtain rfl := Except.ok.inj hok
    rw [partsOfOutput]
    · exact List.forall_mem_nil _
    · exact hne

theorem forall_parts_expandOutputs {outputs done : Fields Value}
    (h : ∀ v ∈ outputs.flatMap (fun output => partsOfOutput output.2), e.LeavesOnly P v)
    (hok : (e.expandOutputs outputs).result = .ok done) :
    ∀ w ∈ done.flatMap (fun output => partsOfOutput output.2), P w := by
  induction outputs generalizing done with
  | nil =>
    rw [expandOutputs] at hok
    obtain rfl := Except.ok.inj hok
    exact List.forall_mem_nil _
  | cons output rest ih =>
    rw [List.flatMap_cons, List.forall_mem_append] at h
    rw [expandOutputs_cons] at hok
    obtain ⟨v, others, hv, hothers, rfl⟩ := Recorded.result_bind_map_eq_ok.mp hok
    rw [List.flatMap_cons, List.forall_mem_append]
    exact ⟨forall_parts_expandOutput h.1 hv, ih h.2 hothers⟩

/-- What holds of each resource when it is expanded holds of all of them under their new names. -/
theorem forall_mem_expandResources {R : Text → Value → Prop} {resources before done : Fields Value}
    (h : ∀ resource ∈ resources, ∀ v,
      (e.expandResource (e.newName resource.1) resource.2).result = .ok v →
        R (e.newName resource.1) v)
    (hbefore : ∀ resource ∈ before, R resource.1 resource.2)
    (hok : (e.expandResources before resources).result = .ok done) :
    ∀ resource ∈ done, R resource.1 resource.2 := by
  induction resources generalizing before with
  | nil =>
    rw [expandResources] at hok
    obtain rfl := Except.ok.inj hok
    exact hbefore
  | cons resource rest ih =>
    obtain ⟨hresource, hrest⟩ := List.forall_mem_cons.mp h
    rw [expandResources] at hok
    obtain ⟨v, hv, hok⟩ := Recorded.result_bind_eq_ok.mp hok
    refine ih hrest (fun other hother => ?_) hok
    rcases Fields.mem_set hother with rfl | hother
    · exact hresource v hv
    · exact hbefore other hother

/-! ### Dependencies -/

theorem dependenciesOfAttribute_expandAttribute (hr : e.renames = []) {key : Text}
    {v done : Value} (hok : (e.expandAttribute l key v).result = .ok done) :
    dependenciesOfAttribute key done = dependenciesOfAttribute key v := by
  by_cases hmap : ∃ entries, v = .map entries
  · obtain ⟨entries, rfl⟩ := hmap
    rw [expandAttribute] at hok
    split at hok
    · rw [Recorded.result_map] at hok
      obtain ⟨evaluated, -, rfl⟩ := map_eq_ok.mp hok
      rfl
    · obtain rfl := Except.ok.inj hok
      rfl
  · have hne : ∀ entries, v ≠ .map entries := fun entries hv => hmap ⟨entries, hv⟩
    rw [expandAttribute_of_ne_map hne, renameDependsOn_of_renames_nil hr, ite_self] at hok
    obtain rfl := Except.ok.inj hok
    rfl

theorem dependenciesOfResource_expandAttributes (hr : e.renames = [])
    {attributes done : Fields Value} (hok : (e.expandAttributes l attributes).result = .ok done) :
    dependenciesOfResource (.map done) = dependenciesOfResource (.map attributes) := by
  induction attributes generalizing done with
  | nil =>
    rw [expandAttributes] at hok
    obtain rfl := Except.ok.inj hok
    rfl
  | cons field rest ih =>
    obtain ⟨v, others, hv, hothers, rfl⟩ := expandAttributes_cons_eq_ok.mp hok
    have hrest := ih hothers
    rw [dependenciesOfResource, dependenciesOfResource] at hrest
    rw [dependenciesOfResource, dependenciesOfResource, List.flatMap_cons, List.flatMap_cons,
      hrest, dependenciesOfAttribute_expandAttribute hr hv]

theorem dependenciesOfResource_expandResource (hr : e.renames = []) {name : Text} {v done : Value}
    (hok : (e.expandResource name v).result = .ok done) :
    dependenciesOfResource done = dependenciesOfResource v := by
  unfold expandResource at hok
  split at hok
  · rw [Recorded.result_map] at hok
    obtain ⟨expanded, hexpanded, rfl⟩ := map_eq_ok.mp hok
    exact dependenciesOfResource_expandAttributes hr hexpanded
  · exact Except.ok.inj hok ▸ rfl

/-! ### Whole templates -/

/-- Each section of an expanded template is the expansion of the section. -/
theorem sections_of_expand {t done : Template} (hok : (e.expand t).result = .ok done) :
    (expandSection (e.evaluateEntries (sectionLocation .metadata)) t.metadata).result =
        .ok done.metadata ∧
      (expandSection (e.evaluateEntries (sectionLocation .conditions)) t.conditions).result =
        .ok done.conditions ∧
      (expandSection (e.expandResources []) t.resources).result = .ok done.resources ∧
      (expandSection e.expandOutputs t.outputs).result = .ok done.outputs := by
  obtain ⟨metadata, hmetadata, hok⟩ := Recorded.result_bind_eq_ok.mp hok
  obtain ⟨conditions, hconditions, hok⟩ := Recorded.result_bind_eq_ok.mp hok
  obtain ⟨resources, hresources, hok⟩ := Recorded.result_bind_eq_ok.mp hok
  obtain ⟨outputs, houtputs, hok⟩ := Recorded.result_bind_eq_ok.mp hok
  obtain rfl := Except.ok.inj hok
  exact ⟨hmetadata, hconditions, hresources, houtputs⟩

/-- An absent section is expanded like one without entries. -/
theorem exists_expansion {expand : Fields Value → Recorded Edge Error (Fields Value)}
    (hnil : (expand []).result = .ok []) {section? done? : Option (Fields Value)}
    (hok : (expandSection expand section?).result = .ok done?) :
    (expand (section?.getD [])).result = .ok (done?.getD []) := by
  cases section? with
  | none =>
    obtain rfl := Except.ok.inj hok
    exact hnil
  | some entries =>
    rw [expandSection, Recorded.result_map] at hok
    obtain ⟨done, hdone, rfl⟩ := map_eq_ok.mp hok
    exact hdone

/-- **What is left of the parts.**  What holds of all that can be left of the parts of a template
holds of the parts of the expanded template. -/
theorem forall_evaluatedParts_expand {t done : Template}
    (h : ∀ v ∈ t.evaluatedParts, e.LeavesOnly P v) (hok : (e.expand t).result = .ok done) :
    ∀ w ∈ done.evaluatedParts, P w := by
  simp only [evaluatedParts, List.forall_mem_append] at h ⊢
  obtain ⟨⟨⟨hmetadata, hconditions⟩, hresources⟩, houtputs⟩ := h
  obtain ⟨hokMetadata, hokConditions, hokResources, hokOutputs⟩ := sections_of_expand hok
  have hentries : ∀ l, (e.evaluateEntries l []).result = .ok [] := fun l => by
    rw [evaluateEntries, Recorded.result_pure]
  refine ⟨⟨⟨?_, ?_⟩, ?_⟩, ?_⟩
  · exact forall_values_evaluateEntries hmetadata (exists_expansion (hentries _) hokMetadata)
  · exact forall_values_evaluateEntries hconditions (exists_expansion (hentries _) hokConditions)
  · have hexpanded := exists_expansion (by rw [expandResources, Recorded.result_pure]) hokResources
    refine List.forall_mem_flatMap.mpr (forall_mem_expandResources
      (R := fun _ v => ∀ w ∈ partsOfResource v, P w) ?_ (List.forall_mem_nil _) hexpanded)
    intro resource hresource v hv
    exact forall_parts_expandResource (List.forall_mem_flatMap.mp hresources resource hresource) hv
  · exact forall_parts_expandOutputs houtputs
      (exists_expansion (by rw [expandOutputs, Recorded.result_pure]) hokOutputs)

/-- Without new names an expanded template has no other dependencies than the template. -/
theorem mem_dependencies_of_expand (hr : e.renames = []) {t done : Template}
    (hok : (e.expand t).result = .ok done) : ∀ name ∈ done.dependencies, name ∈ t.dependencies := by
  have hexpanded := exists_expansion (by rw [expandResources, Recorded.result_pure])
    (sections_of_expand hok).2.2.1
  refine List.forall_mem_flatMap.mpr (forall_mem_expandResources
    (R := fun _ v => ∀ name ∈ dependenciesOfResource v, name ∈ t.dependencies) ?_
    (List.forall_mem_nil _) hexpanded)
  intro resource hresource v hv
  rw [dependenciesOfResource_expandResource hr hv]
  exact fun name hname => List.mem_flatMap.mpr ⟨resource, hresource, hname⟩

end Expander

end CloudTemplate
