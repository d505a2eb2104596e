import CloudTemplate.Proofs.Evaluation.AvoidedNames
import CloudTemplate.Proofs.Expander.EvaluatedParts

/-!
# Renaming is complete

After an expansion no `Ref` or `Fn::GetAtt` in an evaluated part of the template refers to an old
name, and no list of dependencies holds one (`Expander.resolveTemplate_mentions_no_old_names`).  The
new names are put in place in the arguments of calls before these are evaluated, so that is where a
reference must stand to be found.  It is missed

* before a dot, in a text that names an attribute,
* in a map of several entries of which it is the only one that is left,
* where it is a call that gives the old name, and
* in what is known of the deployment.

Nothing is said about texts with variables, in which no names are replaced, and about sections that
are references as a whole.
-/

namespace CloudTemplate

open Intrinsic (isName isDeferred call?)

/-- The text in which the entry of a map names an attribute, taken as a call. -/
def attributeText? (entry : Text × Value) : Option Text :=
  if entry.1 = Intrinsic.getAtt then entry.2.string? else none

namespace Expander

variable {e : Expander}

/-- A name that is replaced by a new one. -/
def IsOld (e : Expander) (name : Text) : Prop :=
  e.renames.has name = true

instance : DecidablePred e.IsOld := fun name =>
  inferInstanceAs (Decidable (e.renames.has name = true))

/-- No new name is replaced by another one. -/
def NewNamesStay (e : Expander) : Prop :=
  ∀ entry ∈ e.renames, ¬ e.IsOld entry.2

/-- Every old name to which the entries of a map come to refer is found by the renaming. -/
structure Covers (e : Expander) (entries : Fields Value) : Prop where
  attributeText : ∀ entry ∈ entries, ∀ text, attributeText? entry = some text →
    ¬ e.IsOld (Text.before '.' (e.newName text))
  plain : call? entries = none → AvoidNames e.IsOld entries

instance (e : Expander) : Decidable e.NewNamesStay :=
  inferInstanceAs (Decidable (∀ entry ∈ e.renames, ¬ e.IsOld entry.2))

instance (e : Expander) : DecidablePred e.Covers := fun entries =>
  decidable_of_iff ((∀ entry ∈ entries, ∀ text, attributeText? entry = some text →
      ¬ e.IsOld (Text.before '.' (e.newName text))) ∧
    (call? entries = none → AvoidNames e.IsOld entries))
    ⟨fun h => ⟨h.1, h.2⟩, fun h => ⟨h.attributeText, h.plain⟩⟩

/-! ### New names -/

theorem not_isOld_newName (hstay : e.NewNamesStay) (name : Text) : ¬ e.IsOld (e.newName name) := by
  rw [newName]
  cases hname : e.renames.get? name with
  | none =>
    rw [Option.getD_none, IsOld, Fields.has, hname]
    exact Bool.false_ne_true
  | some new => exact hstay _ (Fields.mem_of_get? hname)

theorem newName_of_not_isOld {name : Text} (h : ¬ e.IsOld name) : e.newName name = name := by
  rw [IsOld, Fields.has, Bool.not_eq_true, Option.isSome_eq_false_iff,
    Option.isNone_iff_eq_none] at h
  rw [newName, h, Option.getD_none]

/-- A name that is renamed at all is a new name in the end. -/
theorem newName_iterate_succ (hstay : e.NewNamesStay) (n : Nat) (name : Text) :
    e.newName^[n + 1] name = e.newName name :=
  newName_iterate_of_fixed (newName_of_not_isOld (not_isOld_newName hstay name)) n

/-! ### What a value with the new names refers to -/

/-- Once it is renamed, a literal reference is not to an old name, unless it is to an attribute and
the old name stands before a dot in a text. -/
theorem not_isOld_of_referenced?_renamed_succ (hstay : e.NewNamesStay) {function : Text}
    {argument : Value}
    (htext : ∀ text, attributeText? (function, argument) = some text →
      ¬ e.IsOld (Text.before '.' (e.newName text)))
    {n : Nat} {name : Text}
    (h : referenced? function (e.renamed (n + 1) argument) = some name) : ¬ e.IsOld name := by
  rw [referenced?_renamed] at h
  cases argument with
  | string s =>
    rw [renameIn_iterate_string, newName_iterate_succ hstay, referenced?] at h
    split at h
    · exact Option.some.inj h ▸ not_isOld_newName hstay s
    · split at h
      · next hatt => exact Option.some.inj h ▸ htext s (if_pos hatt)
      · cases h
  | list items =>
    rw [renameIn_iterate_list] at h
    rcases items with _ | ⟨first, rest⟩
    · cases h
    · cases first with
      | string s =>
        rw [renameHead, newName_iterate_succ hstay, referenced?] at h
        split at h
        · exact Option.some.inj h ▸ not_isOld_newName hstay s
        · cases h
      | null | bool | int | double | list | map => cases h
  | map entries =>
    rw [renameIn_iterate_map] at h
    cases h
  | null | bool | int | double =>
    rw [renameIn_iterate_of_fixed (by rw [renameIn] <;> simp)] at h
    cases h

/-- **New names take the place of old ones.**  If the renaming covers all maps in a value, then the
value with the new names in place avoids the old ones. -/
theorem avoids_renamed (hstay : e.NewNamesStay) {v : Value} (hcovers : v.Everywhere e.Covers)
    (n : Nat) : (e.renamed n v).Avoids e.IsOld := by
  induction v using Value.induction generalizing n with
  | atom v hv => exact Value.everywhere_atom (isAtom_renamed n hv)
  | list items ih =>
    rw [renamed_list, Value.Avoids, Value.everywhere_list]
    refine forall_mem_renameHead (fun s => Value.everywhere_atom rfl) (List.forall_mem_map.mpr ?_)
    exact fun v hv => ih v hv (Value.everywhere_list.mp hcovers v hv) 0
  | plain entries hcall ih =>
    obtain ⟨hhere, hvalues⟩ :=
      (Value.everywhere_map (Value.isDeferredCall_of_plain hcall)).mp hcovers
    rw [renamed_plain n hcall]
    refine Value.everywhere_map_of (List.forall_mem_map.mpr fun entry hentry name hname => ?_)
      (List.forall_mem_map.mpr fun entry hentry => ih entry hentry (hvalues entry hentry) n)
    -- The names are renamed here only if a call encloses the map.
    cases n with
    | zero =>
      rw [referenced?_renamed] at hname
      exact hhere.plain hcall entry hentry name hname
    | succ n =>
      exact not_isOld_of_referenced?_renamed_succ hstay (hhere.attributeText entry hentry) hname
  | call function argument hname ih _ =>
    cases hd : isDeferred function with
    | true =>
      rw [renamed_deferred n argument hd]
      exact Value.everywhere_of_isDeferredCall hd
    | false =>
      obtain ⟨hhere, hargument⟩ := (Value.everywhere_call hd).mp hcovers
      have htext := List.forall_mem_singleton.mp hhere.attributeText
      rw [renamed_call n argument hname hd, Value.Avoids, Value.everywhere_call hd]
      exact ⟨List.forall_mem_singleton.mpr fun name hreference =>
        not_isOld_of_referenced?_renamed_succ hstay htext hreference, ih hargument (n + 1)⟩

/-! ### Whole templates -/

/-- With the new names in place, no call gives an old one to a reference. -/
def GivesNoOldName (e : Expander) (v : Value) : Prop :=
  (e.renamed 0 v).Everywhere (Intrinsic.Dispatch.GivesNone e.dispatch e.deployment e.IsOld)

instance (e : Expander) (v : Value) : Decidable (e.GivesNoOldName v) :=
  inferInstanceAs (Decidable (Value.Everywhere _ _))

/-- What is left of a value in which the renaming covers all maps mentions no old names. -/
theorem leavesOnly_renamed (hp : e.placeholders = .empty) (htable : e.dispatch.IsBuiltIn)
    (hstay : e.NewNamesStay) (hknown : e.deployment.Avoids e.IsOld) {v : Value}
    (hcovers : v.Everywhere e.Covers) (hgiven : e.GivesNoOldName v) :
    e.withoutRenames.LeavesOnly (fun w => ∀ name, e.IsOld name → ¬ Mentions name w)
      (e.renamed 0 v) := by
  intro l w hok name hname
  have hreduce := result_evaluate (e := e.withoutRenames) rfl hp (e.renamed 0 v) l
  rw [hok] at hreduce
  have havoids : w.Avoids e.IsOld := Intrinsic.Dispatch.avoids_reduce htable hknown hgiven
    (avoids_renamed hstay hcovers 0) _ hreduce.symm
  exact havoids.not_mentions hname

/-- An edge that is noted has new names at both ends. -/
theorem not_isOld_of_mem_notes_expand (hp : e.placeholders = .empty) (hstay : e.NewNamesStay)
    {t done : Template} (hcovers : ∀ v ∈ t.evaluatedParts, v.Everywhere e.Covers)
    (hsources : ∀ name ∈ t.resourceNames, ¬ e.IsOld (Text.before '.' (e.newName name)))
    (hok : (e.expand t).result = .ok done) {edge : Edge} (hedge : edge ∈ (e.expand t).notes) :
    ¬ e.IsOld edge.source ∧ ¬ e.IsOld edge.target := by
  rw [expand_eq_expand_renamed hp] at hok hedge
  obtain ⟨resource, hresource, howner, -, hmentions⟩ :=
    (mem_notes_expand (e := e.withoutRenames) rfl hp hok).mp hedge
  constructor
  · have hmem : resource.1 ∈ (e.renamedTemplate t).resourceNames := List.mem_map_of_mem hresource
    rw [resourceNames_renamedTemplate] at hmem
    obtain ⟨name, hname, hnew⟩ := List.mem_map.mp hmem
    rw [Location.eq_before_of_owner? howner, ← hnew]
    exact hsources name hname
  · intro hold
    obtain ⟨u, hu, hmentions⟩ := Template.exists_part_of_mentions hmentions
    have hpart := Template.mem_evaluatedParts_of_resource hresource hu
    rw [evaluatedParts_renamedTemplate] at hpart
    obtain ⟨v, hv, rfl⟩ := List.mem_map.mp hpart
    exact (avoids_renamed hstay (hcovers v hv) 0).not_mentions hold hmentions

/-- **Renaming is complete.**  Take an expander without placeholders that replaces no new name by
another one, and let nothing that is known of the deployment refer to an old name.  Take a template
in the parts of which the renaming covers all maps and no call gives an old name to a reference, and
let no old name stand before a dot in a new one.

If the expansion succeeds, no part of the expanded template mentions an old name, its resources
depend on none, and every edge that is new goes from a new name, or one that is kept, to
another. -/
theorem resolveTemplate_mentions_no_old_names (hp : e.placeholders = .empty)
    (htable : e.dispatch.IsBuiltIn) (hstay : e.NewNamesStay)
    (hknown : e.deployment.Avoids e.IsOld) {t : Template}
    (hcovers : ∀ v ∈ t.evaluatedParts, v.Everywhere e.Covers)
    (hgiven : ∀ v ∈ t.evaluatedParts, e.GivesNoOldName v)
    (hsources : ∀ name ∈ t.resourceNames, ¬ e.IsOld (Text.before '.' (e.newName name)))
    {document : Value} (hok : (e.resolveTemplate t).1 = .ok document) :
    ∃ done : Template, document = done.toDocument ∧
      (∀ v ∈ done.evaluatedParts, ∀ name, e.IsOld name → ¬ Mentions name v) ∧
      (∀ name ∈ done.dependencies, ¬ e.IsOld name) ∧
      ∀ source target, (e.resolveTemplate t).2.graph.has source target = true →
        e.graph.has source target = true ∨ ¬ e.IsOld source ∧ ¬ e.IsOld target := by
  rw [resolveTemplate, keep, Recorded.result_map] at hok
  obtain ⟨done, hdone, hdocument⟩ := map_eq_ok.mp hok
  have hrenamed := hdone
  rw [expand_eq_expand_renamed hp] at hrenamed
  refine ⟨done, hdocument.symm, ?parts, ?dependencies, ?edges⟩
  case parts =>
    refine forall_evaluatedParts_expand ?_ hrenamed
    rw [evaluatedParts_renamedTemplate]
    exact List.forall_mem_map.mpr fun v hv =>
      leavesOnly_renamed hp htable hstay hknown (hcovers v hv) (hgiven v hv)
  case dependencies =>
    intro name hname
    have hmem := mem_dependencies_of_expand rfl hrenamed name hname
    rw [dependencies_renamedTemplate] at hmem
    obtain ⟨old, -, rfl⟩ := List.mem_map.mp hmem
    exact not_isOld_newName hstay old
  case edges =>
    intro source target hedge
    rw [resolveTemplate, keep, Recorded.notes_map] at hedge
    exact (Graph.has_insertAll.mp hedge).imp_right
      (not_isOld_of_mem_notes_expand hp hstay hcovers hsources hdone)

/-- A resource that is renamed, and references to it in a conditional and below another call.  A
name that a parameter gives is not an old one. -/
theorem resolveTemplate_mentions_no_old_names_of_conditional :
    let topic (name : Text) : Value := .call Intrinsic.ifElse
      (.list [.string "Big", .call Intrinsic.ref (.string name), .noValueRef])
    let arn (name : Text) : Value :=
      .call Intrinsic.base64 (.call Intrinsic.getAtt (.ofStrings [name, "Arn"]))
    let rule (name : Text) (given : Value) : Value :=
      .map [("DependsOn", .ofStrings [name]), ("Properties", .map
        [("Topic", topic name), ("Arn", arn name), ("Role", .call Intrinsic.ref given)])]
    let resources : Fields Value :=
      [("Topic", .map []), ("Rule", rule "Topic" (.call Intrinsic.ref (.string "Name")))]
    let t : Template := { resources := some resources }
    let e : Expander := renameAll
      { deployment := (Deployment.ofTemplate (some t)).setParameter "Name" (.string "Role") }
      [("Topic", "Events")]
    let document : Value := .map [("Resources", .map
      [("Events", .map []), ("Rule", rule "Events" (.string "Role"))])]
    e.NewNamesStay ∧ e.deployment.Avoids e.IsOld ∧
      (∀ v ∈ t.evaluatedParts, v.Everywhere e.Covers) ∧
      (∀ v ∈ t.evaluatedParts, e.GivesNoOldName v) ∧
      (∀ name ∈ t.resourceNames, ¬ e.IsOld (Text.before '.' (e.newName name))) ∧
      (e.resolveTemplate t).1 = .ok document ∧
      (e.resolveTemplate t).2.graph.has "Rule" "Events" = true ∧
      ∃ done : Template, document = done.toDocument ∧
        (∀ v ∈ done.evaluatedParts, ∀ name, e.IsOld name → ¬ Mentions name v) ∧
        (∀ name ∈ done.dependencies, ¬ e.IsOld name) ∧
        ∀ source target, (e.resolveTemplate t).2.graph.has source target = true →
          e.graph.has source target = true ∨ ¬ e.IsOld source ∧ ¬ e.IsOld target := by
  intro topic arn rule resources t e document
  have hstay : e.NewNamesStay := by decide +kernel
  have hknown : e.deployment.Avoids e.IsOld :=
    Deployment.avoids_of_mappings_eq_none rfl (by decide +kernel) (by decide +kernel)
      (by decide +kernel)
  have hcovers : ∀ v ∈ t.evaluatedParts, v.Everywhere e.Covers := by decide +kernel
  have hgiven : ∀ v ∈ t.evaluatedParts, e.GivesNoOldName v := by decide +kernel
  have hsources : ∀ name ∈ t.resourceNames, ¬ e.IsOld (Text.before '.' (e.newName name)) := by
    decide +kernel
  have hok : (e.resolveTemplate t).1 = .ok document := by decide +kernel
  exact ⟨hstay, hknown, hcovers, hgiven, hsources, hok, by decide +kernel,
    resolveTemplate_mentions_no_old_names rfl (.inl rfl) hstay hknown hcovers hgiven hsources hok⟩

/-- All resources that get new names are declared, and the new names are those of nothing yet; still
there are references to an old name afterwards.  They are missed in a text with variables, before a
dot, in a section that is a reference as a whole, in a map of which a single entry is left, where a
parameter gives the name, and in a known attribute.  An edge comes from the old name where it stands
before a dot in a new one. -/
theorem resolveTemplate_misses_old_names :
    let reference (name : Text) : Value := .call Intrinsic.ref (.string name)
    let text : Value := .call Intrinsic.sub (.string "$\x7bOld\x7d/$\x7bOld.Arn\x7d")
    let given : Value := .call Intrinsic.ref (reference "Name")
    let single : Value := .map [("Ref", .string "Old"), ("More", .noValueRef)]
    let user (arn given single known : Value) : Value := .map
      [("Metadata", reference "Old"), ("Properties", .map
        [("Text", text), ("Arn", .call Intrinsic.getAtt arn), ("Given", given),
          ("Single", single), ("Known", known)])]
    let known : Value := .call Intrinsic.getAtt (.ofStrings ["User", "Link"])
    let other (name : Text) : Value :=
      .map [("DependsOn", .string name), ("Properties", .map [("Target", reference name)])]
    let resources : Fields Value :=
      [("Old", .map []), ("Other", other "Old"),
        ("User", user (.string "Old.Arn") given single known)]
    let t : Template := { resources := some resources }
    let d : Deployment := (Deployment.ofTemplate (some t)).setParameter "Name" (.string "Old")
    let e : Expander := renameAll { deployment := d.setAttribute "User" "Link" (reference "Old") }
      [("Old", "New"), ("Other", "Old.2")]
    let document : Value := .map [("Resources", .map
      [("New", .map []), ("Old.2", other "New"),
        ("User", user (.ofStrings ["Old", "Arn"]) (reference "Old") (reference "Old")
          (reference "Old"))])]
    e.placeholders = .empty ∧ e.graph = .empty ∧
      (∀ entry ∈ e.renames, t.hasResource entry.1 = true ∧ d.isParameter entry.1 = false ∧
        d.isPseudo entry.1 = false ∧ t.hasResource entry.2 = false ∧ d.isParameter entry.2 = false ∧
          d.isPseudo entry.2 = false ∧ ¬ e.IsOld entry.2) ∧
      e.renames.values.Nodup ∧ e.IsOld "Old" ∧
      (e.resolveTemplate t).1 = .ok document ∧
      (e.resolveTemplate t).2.graph.has "User" "Old" = true ∧
      (e.resolveTemplate t).2.graph.has "Old" "New" = true := by
  intro reference text given single user known other resources t d e document
  refine ⟨rfl, rfl, ?_, ?_, ?_, ?_, ?_, ?_⟩
  all_goals decide +kernel

end Expander

end CloudTemplate
