import CloudTemplate.Expander.Session
import CloudTemplate.Proofs.Evaluation.CallFree
import CloudTemplate.Proofs.Expander.EvaluatedParts
import CloudTemplate.Proofs.Template.Sections
import CloudTemplate.Proofs.Value.DistinctNames

/-!
# Plain templates

An expansion leaves a template as it is if no call stands where calls are evaluated.  The sections
are put together again one by one, every list and map inside them included, and come out as they
were; only the name of an export moves to the front.

This holds of every document that is a template, except that no document comes of null: null is
read as the template without sections, but it is not expanded.

## Main results

* `Expander.evaluate_of_isCallFree`: a value without calls evaluates to itself and leaves no edges.
* `Expander.resolveDocument_of_callFree`: a plain template is expanded to its own document.
* `Expander.resolveDocument_null`: null is a template that is not expanded.
-/

namespace CloudTemplate

/-! ### Exports with their name in front -/

/-- The entries of an export, the name first. -/
def exportNameFirst (entries : Fields Value) : Fields Value :=
  entries.filter (fun entry => entry.1 = ("Name" : Text)) ++
    entries.filter fun entry => entry.1 ≠ ("Name" : Text)

/-- An attribute of an output, with the name in front if it is the export. -/
def outputAttributeNameFirst (key : Text) : Value → Value
  | .map entries => if key = "Export" then .map (exportNameFirst entries) else .map entries
  | v => v

/-- An output, with the name in front in its export. -/
def outputNameFirst : Value → Value
  | .map attributes =>
    .map (attributes.map fun field => (field.1, outputAttributeNameFirst field.1 field.2))
  | v => v

/-- The template with the name in front in the export of every output. -/
def Template.withExportNamesFirst (t : Template) : Template :=
  { t with outputs := t.outputs.map fun outputs =>
      outputs.map fun output => (output.1, outputNameFirst output.2) }

theorem exportNameFirst_of_get?_eq_none {entries : Fields Value}
    (h : entries.get? "Name" = none) : exportNameFirst entries = entries := by
  have hname := Fields.ne_of_get?_eq_none h
  rw [exportNameFirst, List.filter_eq_nil_iff.mpr (by simpa using hname), List.nil_append,
    List.filter_eq_self.mpr (by simpa using hname)]

namespace Expander

open Template
open Intrinsic (Error)

variable {e : Expander} {l : Location}

/-! ### Values without calls -/

theorem evaluateEach_of_fixed {items : List Value}
    (h : ∀ v ∈ items, ∀ l, e.evaluate l v = pure (.value v)) (index : Nat) :
    e.evaluateEach l index items = pure (items.map .value) := by
  induction items generalizing index with
  | nil => rw [evaluateEach, List.map_nil]
  | cons v rest ih =>
    obtain ⟨hv, hrest⟩ := List.forall_mem_cons.mp h
    rw [evaluateEach, hv, pure_bind, ih hrest, pure_bind, List.map_cons]

theorem evaluateEntries_of_fixed {entries : Fields Value}
    (h : ∀ entry ∈ entries, ∀ l, e.evaluate l entry.2 = pure (.value entry.2)) :
    e.evaluateEntries l entries = pure entries := by
  induction entries with
  | nil => rw [evaluateEntries]
  | cons entry rest ih =>
    obtain ⟨hentry, hrest⟩ := List.forall_mem_cons.mp h
    rw [evaluateEntries, hentry, pure_bind, ih hrest, pure_bind]
    rfl

/-- **A value without calls evaluates to itself**, whatever the expander knows, and no edge is
noted. -/
theorem evaluate_of_isCallFree {v : Value} (h : v.IsCallFree) :
    e.evaluate l v = pure (.value v) := by
  induction v using Value.induction generalizing l with
  | atom v hv => exact evaluate_atom hv
  | list items ih =>
    rw [evaluate_list, evaluateEach_of_fixed fun v hv l => ih v hv (h.of_mem_items hv), map_pure,
      Outcome.items_map_value]
  | plain entries hcall ih =>
    rw [evaluate_plain hcall,
      evaluateEntries_of_fixed fun entry hentry l => ih entry hentry (h.of_mem_entries hentry),
      map_pure]
  | call function argument hname => exact absurd h (Value.not_isCallFree_call hname)

theorem evaluateEntries_of_isCallFree {entries : Fields Value}
    (h : ∀ v ∈ Fields.values entries, v.IsCallFree) : e.evaluateEntries l entries = pure entries :=
  evaluateEntries_of_fixed fun _ hentry _ =>
    evaluate_of_isCallFree (h _ (List.mem_map_of_mem hentry))

/-! ### Resources -/

section Resources

variable (hr : e.renames = [])
include hr

theorem expandAttribute_of_callFree {key : Text} {v : Value}
    (h : ∀ u ∈ partsOfAttribute key v, u.IsCallFree) : e.expandAttribute l key v = pure v := by
  by_cases hmap : ∃ entries, v = .map entries
  · obtain ⟨entries, rfl⟩ := hmap
    rw [partsOfAttribute] at h
    rw [expandAttribute]
    split
    · next hkey =>
      rw [if_pos hkey] at h
      rw [evaluateEntries_of_isCallFree h, map_pure]
    · rfl
  · rw [expandAttribute_of_ne_map fun entries hv => hmap ⟨entries, hv⟩,
      renameDependsOn_of_renames_nil hr, ite_self]

theorem expandAttributes_of_callFree {attributes : Fields Value}
    (h : ∀ v ∈ partsOfResource (.map attributes), v.IsCallFree) :
    e.expandAttributes l attributes = pure attributes := by
  induction attributes with
  | nil => rw [expandAttributes]
  | cons field rest ih =>
    rw [partsOfResource, List.flatMap_cons, List.forall_mem_append] at h
    rw [expandAttributes_cons, expandAttribute_of_callFree hr h.1, pure_bind, ih h.2, map_pure]

theorem expandResource_of_callFree {name : Text} {v : Value}
    (h : ∀ u ∈ partsOfResource v, u.IsCallFree) : e.expandResource name v = pure v := by
  unfold expandResource
  split
  · rw [expandAttributes_of_callFree hr h, map_pure]
  · rfl

/-- Resources with distinct names are put one behind the other. -/
theorem expandResources_of_callFree {before resources : Fields Value}
    (hdistinct : (before.names ++ resources.names).Nodup)
    (h : ∀ v ∈ resources.flatMap fun resource => partsOfResource resource.2, v.IsCallFree) :
    e.expandResources before resources = pure (before ++ resources) := by
  induction resources generalizing before with
  | nil => rw [expandResources, List.append_nil]
  | cons resource rest ih =>
    rw [List.flatMap_cons, List.forall_mem_append] at h
    obtain ⟨hset, hnext⟩ := Fields.set_of_nodup hdistinct resource.2
    rw [expandResources, newName_of_renames_nil hr, expandResource_of_callFree hr h.1, pure_bind,
      ih hnext h.2, hset, List.append_assoc, List.singleton_append]

end Resources

/-! ### Outputs -/

theorem expandExport_of_callFree {entries : Fields Value} (hdistinct : entries.names.Nodup)
    (h : ∀ v ∈ (entries.get? "Name").toList, v.IsCallFree) :
    e.expandExport l entries = pure (exportNameFirst entries) := by
  rw [expandExport]
  cases hname : entries.get? "Name" with
  | none => rw [exportNameFirst_of_get?_eq_none hname]
  | some v =>
    rw [hname, Option.toList_some, List.forall_mem_singleton] at h
    rw [exportNameFirst, Fields.filter_of_get? hdistinct hname]
    dsimp only
    rw [evaluate_of_isCallFree h, pure_bind]
    rfl

theorem expandOutputAttribute_of_callFree {key : Text} {v : Value} (hdistinct : v.names.Nodup)
    (h : ∀ u ∈ partsOfOutputAttribute key v, u.IsCallFree) :
    e.expandOutputAttribute l key v = pure [(key, outputAttributeNameFirst key v)] := by
  rw [expandOutputAttribute.eq_def]
  by_cases hvalue : key = "Value"
  · have hexport : key ≠ "Export" := hvalue ▸ (by decide)
    rw [partsOfOutputAttribute_value hvalue, List.forall_mem_singleton] at h
    rw [if_pos hvalue, evaluate_of_isCallFree h, map_pure]
    cases v with
    | map entries => rw [outputAttributeNameFirst, if_neg hexport, Outcome.entry]
    | null | bool | int | double | string | list => rfl
  · rw [if_neg hvalue]
    cases v with
    | map entries =>
      rw [outputAttributeNameFirst]
      dsimp only
      split
      · next hexport =>
        rw [partsOfOutputAttribute_export hexport] at h
        rw [expandExport_of_callFree hdistinct h, map_pure]
      · rfl
    | null | bool | int | double | string | list => rfl

theorem expandOutputAttributes_of_callFree {attributes : Fields Value}
    (hdistinct : ∀ field ∈ attributes, field.2.names.Nodup)
    (h : ∀ v ∈ partsOfOutput (.map attributes), v.IsCallFree) :
    e.expandOutputAttributes l attributes =
      pure (attributes.map fun field => (field.1, outputAttributeNameFirst field.1 field.2)) := by
  induction attributes with
  | nil => rw [expandOutputAttributes, List.map_nil]
  | cons field rest ih =>
    obtain ⟨hfield, hrest⟩ := List.forall_mem_cons.mp hdistinct
    rw [partsOfOutput, List.flatMap_cons, List.forall_mem_append] at h
    rw [expandOutputAttributes_cons, expandOutputAttribute_of_callFree hfield h.1, pure_bind,
      ih hrest h.2, map_pure, List.map_cons, List.singleton_append]

theorem expandOutput_of_callFree {name : Text} {v : Value} (hdistinct : v.HasDistinctNames)
    (h : ∀ u ∈ partsOfOutput v, u.IsCallFree) :
    e.expandOutput name v = pure (outputNameFirst v) := by
  cases v with
  | map attributes =>
    have hfields : ∀ field ∈ attributes, field.2.names.Nodup := fun field hfield =>
      (Value.hasDistinctNames_map_iff.mp hdistinct).2 field hfield _ (Value.mem_nodes_self _)
    rw [expandOutput, expandOutputAttributes_of_callFree hfields h, map_pure, outputNameFirst]
  | null | bool | int | double | string | list => rfl

theorem expandOutputs_of_callFree {outputs : Fields Value}
    (hdistinct : ∀ output ∈ outputs, output.2.HasDistinctNames)
    (h : ∀ v ∈ outputs.flatMap fun output => partsOfOutput output.2, v.IsCallFree) :
    e.expandOutputs outputs =
      pure (outputs.map fun output => (output.1, outputNameFirst output.2)) := by
  induction outputs with
  | nil => rw [expandOutputs, List.map_nil]
  | cons output rest ih =>
    obtain ⟨houtput, hrest⟩ := List.forall_mem_cons.mp hdistinct
    rw [List.flatMap_cons, List.forall_mem_append] at h
    rw [expandOutputs_cons, expandOutput_of_callFree houtput h.1, pure_bind, ih hrest h.2, map_pure,
      List.map_cons]

/-! ### Whole templates -/

theorem expandSection_of_pure {expand : Fields Value → Recorded Edge Error (Fields Value)}
    {f : Fields Value → Fields Value} {section? : Option (Fields Value)}
    (h : ∀ entries, section? = some entries → expand entries = pure (f entries)) :
    expandSection expand section? = pure (section?.map f) := by
  cases section? with
  | none => rfl
  | some entries => rw [expandSection, h entries rfl, map_pure, Option.map_some]

/-- A section in which every entry is evaluated stays as it is. -/
theorem expandSection_of_isCallFree {section? : Option (Fields Value)}
    (h : ∀ v ∈ Fields.values (section?.getD []), v.IsCallFree) :
    expandSection (e.evaluateEntries l) section? = pure section? := by
  have hentries : ∀ entries, section? = some entries →
      e.evaluateEntries l entries = pure (id entries) := by
    rintro entries rfl
    exact evaluateEntries_of_isCallFree h
  rw [expandSection_of_pure hentries, Option.map_id, id_eq]

theorem expand_of_callFree (hr : e.renames = []) {t : Template}
    (hresources : ∀ resources, t.resources = some resources → resources.names.Nodup)
    (houtputs : ∀ outputs, t.outputs = some outputs →
      ∀ output ∈ outputs, output.2.HasDistinctNames)
    (h : ∀ v ∈ t.evaluatedParts, v.IsCallFree) : e.expand t = pure t.withExportNamesFirst := by
  simp only [evaluatedParts, List.forall_mem_append] at h
  obtain ⟨⟨⟨hmetadata, hconditions⟩, hinResources⟩, hinOutputs⟩ := h
  have hexpandResources : ∀ resources, t.resources = some resources →
      e.expandResources [] resources = pure (id resources) := by
    intro resources hsome
    rw [hsome, Option.getD_some] at hinResources
    exact expandResources_of_callFree hr (hresources resources hsome) hinResources
  have hexpandOutputs : ∀ outputs, t.outputs = some outputs →
      e.expandOutputs outputs =
        pure (outputs.map fun output => (output.1, outputNameFirst output.2)) := by
    intro outputs hsome
    rw [hsome, Option.getD_some] at hinOutputs
    exact expandOutputs_of_callFree (houtputs outputs hsome) hinOutputs
  rw [expand, expandSection_of_isCallFree hmetadata, pure_bind,
    expandSection_of_isCallFree hconditions, pure_bind, expandSection_of_pure hexpandResources,
    pure_bind, expandSection_of_pure hexpandOutputs, pure_bind, Option.map_id]
  rfl

theorem keep_pure {ε α : Type} (a : α) : e.keep (ε := ε) (pure a) = (.ok a, e) := by
  rw [keep, Recorded.result_pure, Recorded.notes_pure, Graph.insertAll_nil]

/-- In a document with distinct names, every section of its template has distinct names. -/
theorem hasDistinctNames_of_content? {d v : Value} {t : Template} (hd : ofDocument d = .ok t)
    (hdistinct : d.HasDistinctNames) {s : Section} (hv : t.content? s = some v) :
    v.HasDistinctNames := by
  obtain ⟨document, rfl, hget⟩ := get?_of_ofDocument hd hv
  exact (Value.hasDistinctNames_map_iff.mp hdistinct).2 _ (Fields.mem_of_get? hget)

/-- **Plain templates pass through.**  If a document other than null is a template, and no call
stands where calls are evaluated, then an expander without new names gives back the document of the
template, with the name of every export in front, and stays as it is. -/
theorem resolveDocument_of_callFree (hr : e.renames = []) {d : Value} {t : Template}
    (hd : ofDocument d = .ok t) (hnull : d ≠ .null) (hdistinct : d.HasDistinctNames)
    (hfree : ∀ v ∈ t.evaluatedParts, v.IsCallFree) :
    e.resolveDocument d = (.ok (some t.withExportNamesFirst.toDocument), e) := by
  have hresources : ∀ resources, t.resources = some resources → resources.names.Nodup := by
    intro resources hsome
    have hcontent : t.content? .resources = some (.map resources) := by
      rw [content?, hsome, Option.map_some]
    exact (Value.hasDistinctNames_map_iff.mp
      (hasDistinctNames_of_content? hd hdistinct hcontent)).1
  have houtputs : ∀ outputs, t.outputs = some outputs →
      ∀ output ∈ outputs, output.2.HasDistinctNames := by
    intro outputs hsome
    have hcontent : t.content? .outputs = some (.map outputs) := by
      rw [content?, hsome, Option.map_some]
    exact (Value.hasDistinctNames_map_iff.mp
      (hasDistinctNames_of_content? hd hdistinct hcontent)).2
  have hdocument : ofDocument? d = .ok (some t) := by
    rw [ofDocument?_of_ne_null hnull, hd]
    rfl
  rw [resolveDocument, hdocument]
  dsimp only
  rw [resolveTemplate, expand_of_callFree hr hresources houtputs hfree, map_pure, keep_pure]
  rfl

/-- Calls may stand where none are evaluated: as the properties of a resource, in a resource that is
no map, and in other attributes of an output. -/
theorem resolveDocument_of_callFree_of_idle_calls :
    let reference : Value := .call "Ref" (.string "Topic")
    let metadata : Value :=
      .map [("Fn::Sub", .list [.null, .map [], .list [.string "$\x7bTopic\x7d"]])]
    let resources : Value := .map [
      ("Queue", .map [("Type", .string "Queue"), ("Properties", reference),
        ("DependsOn", .list [.string "Topic", reference])]),
      ("Topic", .list [reference])]
    let outputs (exported : Value) : Value := .map [
      ("Url", .map [("Export", exported), ("Value", .string "url"), ("Condition", reference)])]
    let document (exported : Value) : Value :=
      .map [("Metadata", metadata), ("Resources", resources), ("Outputs", outputs exported)]
    let e : Expander :=
      { placeholders := SortedSet.empty.insert "Topic", graph := Graph.empty.insert ⟨"B", "A"⟩ }
    e.resolveDocument (document (.map [("Note", reference), ("Name", .string "queue-url")])) =
      (.ok (some (document (.map [("Name", .string "queue-url"), ("Note", reference)]))), e) := by
  intro reference metadata resources outputs document e
  obtain ⟨t, ht⟩ : ∃ t, ofDocument
      (document (.map [("Note", reference), ("Name", .string "queue-url")])) = .ok t := ⟨_, rfl⟩
  have hexpanded := resolveDocument_of_callFree (e := e) rfl ht (by decide +kernel)
    (by decide +kernel) (by obtain rfl := Except.ok.inj ht; decide +kernel)
  obtain rfl := Except.ok.inj ht
  exact hexpanded

/-- Null is the template without sections, the document of which is an empty map.  But no document
comes of it. -/
theorem resolveDocument_null :
    ofDocument .null = .ok {} ∧ ({} : Template).evaluatedParts = [] ∧
      ({} : Template).withExportNamesFirst.toDocument = .map [] ∧
      (({} : Expander).resolveDocument .null).1 = .ok none ∧
      (({} : Expander).resolveDocument .null).1 ≠ .ok (some (.map [])) :=
  ⟨rfl, rfl, rfl, rfl, by simp [resolveDocument, ofDocument?]⟩

end Expander

end CloudTemplate
