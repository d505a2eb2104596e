import CloudTemplate.Proofs.Expander.ExactEdges
import CloudTemplate.Proofs.Expander.Renaming

/-!
# Templates with the new names in place

An expander with new names makes of a template what it makes, without them, of the template in which
the new names are in place (`Expander.expand_eq_expand_renamed`): those of the resources, those in
the lists of dependencies, and those in the parts in which calls are evaluated.
-/

namespace CloudTemplate.Expander

open Intrinsic (Error)

variable {e : Expander} {l : Location}

/-! ### The new names in each section -/

/-- The values of some entries with all names renamed. -/
def renamedValues (e : Expander) (entries : Fields Value) : Fields Value :=
  entries.map fun entry => (entry.1, e.renamed 0 entry.2)

/-- An attribute of a resource with the new names in place. -/
def renamedAttribute (e : Expander) (key : Text) : Value → Value
  | .map entries =>
    if evaluatedAttributes.contains key then .map (e.renamedValues entries) else .map entries
  | v => if key = "DependsOn" then e.renameDependsOn v else v

/-- A resource with the new names in place. -/
def renamedResource (e : Expander) : Value → Value
  | .map attributes =>
    .map (attributes.map fun field => (field.1, e.renamedAttribute field.1 field.2))
  | v => v

/-- The export of an output with the new names in place. -/
def renamedExport (e : Expander) (entries : Fields Value) : Fields Value :=
  entries.map fun entry =>
    (entry.1, if entry.1 = ("Name" : Text) then e.renamed 0 entry.2 else entry.2)

/-- An attribute of an output with the new names in place. -/
def renamedOutputAttribute (e : Expander) (key : Text) (v : Value) : Value :=
  if key = "Value" then e.renamed 0 v
  else
    match v with
    | .map entries => if key = "Export" then .map (e.renamedExport entries) else v
    | _ => v

/-- An output with the new names in place. -/
def renamedOutput (e : Expander) : Value → Value
  | .map attributes =>
    .map (attributes.map fun field => (field.1, e.renamedOutputAttribute field.1 field.2))
  | v => v

/-- A template with the new names in place. -/
def renamedTemplate (e : Expander) (t : Template) : Template :=
  { t with
    metadata := t.metadata.map e.renamedValues
    conditions := t.conditions.map e.renamedValues
    resources := t.resources.map fun resources =>
      resources.map fun resource => (e.newName resource.1, e.renamedResource resource.2)
    outputs := t.outputs.map fun outputs =>
      outputs.map fun output => (output.1, e.renamedOutput output.2) }

/-! ### The expansion of each section -/

theorem renameDependsOn_of_renames_nil (h : e.renames = []) (v : Value) :
    e.renameDependsOn v = v := by
  cases v with
  | list items =>
    rw [renameDependsOn]
    refine congrArg Value.list ((List.map_congr_left fun v _ => ?_).trans (List.map_id items))
    cases v with
    | string s => exact congrArg Value.string (newName_of_renames_nil h s)
    | null | bool | int | double | list | map => rfl
  | string s => rw [renameDependsOn, newName_of_renames_nil h]
  | null | bool | int | double | map => rw [renameDependsOn] <;> simp

/-- Dependencies are renamed where they are listed in a string or a list. -/
theorem renamedAttribute_of_ne_map {key : Text} {v : Value} (h : ∀ entries, v ≠ .map entries) :
    e.renamedAttribute key v = if key = "DependsOn" then e.renameDependsOn v else v := by
  rw [renamedAttribute]
  exact h

theorem renameDependsOn_ne_map {v : Value} (h : ∀ entries, v ≠ .map entries)
    (entries : List (Text × Value)) : e.renameDependsOn v ≠ .map entries := by
  cases v with
  | map others => exact absurd rfl (h others)
  | null | bool | int | double | string | list => rw [renameDependsOn] <;> simp

theorem expandAttribute_of_ne_map {key : Text} {v : Value} (h : ∀ entries, v ≠ .map entries) :
    e.expandAttribute l key v = pure (if key = "DependsOn" then e.renameDependsOn v else v) := by
  rw [expandAttribute]
  exact h

theorem get?_renamedExport (entries : Fields Value) :
    (e.renamedExport entries).get? "Name" = (entries.get? "Name").map (e.renamed 0) := by
  induction entries with
  | nil => rfl
  | cons entry rest ih =>
    rw [renamedExport] at ih
    rw [renamedExport, List.map_cons, Fields.get?_cons, Fields.get?_cons, ih]
    split
    · rfl
    · rfl

/-- Only the name is renamed. -/
theorem renamedExport_of_get?_eq_none {entries : Fields Value} (h : entries.get? "Name" = none) :
    e.renamedExport entries = entries := by
  induction entries with
  | nil => rfl
  | cons entry rest ih =>
    rw [Fields.get?_cons] at h
    split at h
    · cases h
    · next hkey =>
      rw [renamedExport] at ih
      rw [renamedExport, List.map_cons, ih h, if_neg hkey]

theorem filter_renamedExport (entries : Fields Value) :
    (e.renamedExport entries).filter (fun entry => entry.1 ≠ ("Name" : Text)) =
      entries.filter fun entry => entry.1 ≠ ("Name" : Text) := by
  induction entries with
  | nil => rfl
  | cons entry rest ih =>
    rw [renamedExport] at ih
    rw [renamedExport, List.map_cons, List.filter_cons, List.filter_cons, ih]
    by_cases hkey : entry.1 = ("Name" : Text)
    · simp [hkey]
    · simp [hkey]

/-- Expand one attribute of an output that stands at a location. -/
def expandOutputAttribute (e : Expander) (l : Location) (key : Text) (v : Value) :
    Recorded Edge Error (List (Text × Value)) :=
  if key = "Value" then Outcome.entry key <$> e.evaluate (l.entry key) v
  else
    match v with
    | .map entries =>
      if key = "Export" then
        (fun entries => [(key, .map entries)]) <$> e.expandExport (l.entry key) entries
      else pure [(key, v)]
    | _ => pure [(key, v)]

theorem expandOutputAttributes_cons (key : Text) (v : Value) (rest : List (Text × Value)) :
    e.expandOutputAttributes l ((key, v) :: rest) =
      e.expandOutputAttribute l key v >>= fun expanded =>
        (expanded ++ ·) <$> e.expandOutputAttributes l rest := by
  rw [expandOutputAttributes.eq_def, expandOutputAttribute.eq_def]
  simp only [map_eq_pure_bind]
  by_cases hvalue : key = "Value"
  · simp only [if_pos hvalue]
  · simp only [if_neg hvalue]
    cases v with
    | map entries =>
      by_cases hexport : key = "Export"
      · simp only [if_pos hexport, bind_assoc]
      · simp only [if_neg hexport]
    | null | bool | int | double | string | list => rfl

/-- Expand an output, given its name. -/
def expandOutput (e : Expander) (name : Text) : Value → Recorded Edge Error Value
  | .map attributes =>
    .map <$> e.expandOutputAttributes ((Location.root.entry "Outputs").entry name) attributes
  | v => return v

theorem expandOutputs_cons (name : Text) (v : Value) (rest : List (Text × Value)) :
    e.expandOutputs ((name, v) :: rest) =
      e.expandOutput name v >>= fun v => List.cons (name, v) <$> e.expandOutputs rest := by
  simp only [map_eq_pure_bind]
  cases v with
  | map attributes =>
    rw [expandOutputs, expandOutput, bind_map_left]
  | null | bool | int | double | string | list =>
    rw [expandOutputs, expandOutput, pure_bind] <;> simp

theorem expandSection_map (expand : Fields Value → Recorded Edge Error (Fields Value))
    (f : Fields Value → Fields Value) (section? : Option (Fields Value)) :
    expandSection expand (section?.map f) =
      expandSection (fun entries => expand (f entries)) section? := by
  cases section? <;> rfl

section

variable (hp : e.placeholders = .empty)
include hp

theorem evaluateEntries_eq_renamed (entries : Fields Value) :
    e.evaluateEntries l entries =
      e.withoutRenames.evaluateEntries l (e.renamedValues entries) := by
  have h := evaluateEntries_renamed (l := l)
    (fun entry (_ : entry ∈ entries) => walksRenamed hp entry.2) 0
  simpa only [Function.iterate_zero, id_eq, Prod.eta, List.map_id_fun', renamedValues] using h

theorem expandAttribute_renamed (key : Text) (v : Value) :
    e.expandAttribute l key v =
      e.withoutRenames.expandAttribute l key (e.renamedAttribute key v) := by
  by_cases hmap : ∃ entries, v = .map entries
  · obtain ⟨entries, rfl⟩ := hmap
    rw [renamedAttribute, expandAttribute]
    split
    · next hkey => rw [expandAttribute, if_pos hkey, evaluateEntries_eq_renamed hp]
    · next hkey => rw [expandAttribute, if_neg hkey]
  · have hne : ∀ entries, v ≠ .map entries := fun entries h => hmap ⟨entries, h⟩
    rw [expandAttribute_of_ne_map hne, renamedAttribute_of_ne_map hne]
    split
    · next hkey =>
      rw [expandAttribute_of_ne_map (renameDependsOn_ne_map hne), if_pos hkey,
        renameDependsOn_of_renames_nil (e := e.withoutRenames) rfl]
    · next hkey => rw [expandAttribute_of_ne_map hne, if_neg hkey]

theorem expandAttributes_renamed (attributes : List (Text × Value)) :
    e.expandAttributes l attributes =
      e.withoutRenames.expandAttributes l
        (attributes.map fun field => (field.1, e.renamedAttribute field.1 field.2)) := by
  induction attributes with
  | nil => rw [expandAttributes, List.map_nil, expandAttributes]
  | cons field rest ih =>
    rw [List.map_cons, expandAttributes_cons, expandAttributes_cons, expandAttribute_renamed hp, ih]

theorem expandResource_renamed (name : Text) (v : Value) :
    e.expandResource name v = e.withoutRenames.expandResource name (e.renamedResource v) := by
  cases v with
  | map attributes =>
    rw [renamedResource, expandResource, expandResource, expandAttributes_renamed hp]
  | null | bool | int | double | string | list =>
    rw [renamedResource, expandResource, expandResource] <;> simp

theorem expandResources_renamed (done : Fields Value) (resources : List (Text × Value)) :
    e.expandResources done resources =
      e.withoutRenames.expandResources done
        (resources.map fun resource => (e.newName resource.1, e.renamedResource resource.2)) := by
  induction resources generalizing done with
  | nil => rw [expandResources, List.map_nil, expandResources]
  | cons resource rest ih =>
    rw [List.map_cons, expandResources, expandResources,
      newName_of_renames_nil (e := e.withoutRenames) rfl, expandResource_renamed hp]
    simp only [ih]

theorem expandExport_renamed (entries : Fields Value) :
    e.expandExport l entries = e.withoutRenames.expandExport l (e.renamedExport entries) := by
  rw [expandExport, expandExport, get?_renamedExport, filter_renamedExport]
  cases hname : Fields.get? entries "Name" with
  | none => rw [renamedExport_of_get?_eq_none hname, Option.map_none]
  | some v =>
    rw [Option.map_some]
    dsimp only
    rw [evaluate_eq_evaluate_renamed hp]

theorem expandOutputAttribute_renamed (key : Text) (v : Value) :
    e.expandOutputAttribute l key v =
      e.withoutRenames.expandOutputAttribute l key (e.renamedOutputAttribute key v) := by
  rw [renamedOutputAttribute.eq_def, expandOutputAttribute.eq_def, expandOutputAttribute.eq_def]
  by_cases hvalue : key = "Value"
  · simp only [if_pos hvalue, evaluate_eq_evaluate_renamed hp v]
  · simp only [if_neg hvalue]
    cases v with
    | map entries =>
      by_cases hexport : key = "Export"
      · simp only [if_pos hexport, expandExport_renamed hp entries]
      · simp only [if_neg hexport]
    | null | bool | int | double | string | list => rfl

theorem expandOutputAttributes_renamed (attributes : List (Text × Value)) :
    e.expandOutputAttributes l attributes =
      e.withoutRenames.expandOutputAttributes l
        (attributes.map fun field => (field.1, e.renamedOutputAttribute field.1 field.2)) := by
  induction attributes with
  | nil => rw [expandOutputAttributes, List.map_nil, expandOutputAttributes]
  | cons field rest ih =>
    rw [List.map_cons, expandOutputAttributes_cons, expandOutputAttributes_cons,
      expandOutputAttribute_renamed hp, ih]

theorem expandOutput_renamed (name : Text) (v : Value) :
    e.expandOutput name v = e.withoutRenames.expandOutput name (e.renamedOutput v) := by
  cases v with
  | map attributes =>
    rw [renamedOutput, expandOutput, expandOutput, expandOutputAttributes_renamed hp]
  | null | bool | int | double | string | list =>
    rw [renamedOutput, expandOutput, expandOutput] <;> simp

theorem expandOutputs_renamed (outputs : List (Text × Value)) :
    e.expandOutputs outputs =
      e.withoutRenames.expandOutputs
        (outputs.map fun output => (output.1, e.renamedOutput output.2)) := by
  induction outputs with
  | nil => rw [expandOutputs, List.map_nil, expandOutputs]
  | cons output rest ih =>
    rw [List.map_cons, expandOutputs_cons, expandOutputs_cons, expandOutput_renamed hp, ih]

/-- **New names are put in place first**, in a template as in a value. -/
theorem expand_eq_expand_renamed (t : Template) :
    e.expand t = e.withoutRenames.expand (e.renamedTemplate t) := by
  have hvalues : ∀ l, e.evaluateEntries l =
      fun entries => e.withoutRenames.evaluateEntries l (e.renamedValues entries) :=
    fun l => funext (evaluateEntries_eq_renamed hp)
  have hresources := funext (expandResources_renamed hp [])
  have houtputs := funext (expandOutputs_renamed hp)
  rw [expand, expand, renamedTemplate]
  simp only [expandSection_map, hvalues, hresources, houtputs]

end

end CloudTemplate.Expander
