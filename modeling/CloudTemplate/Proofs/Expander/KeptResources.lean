import CloudTemplate.Proofs.Graph.TargetsFirst
import CloudTemplate.Proofs.Expander.EvaluatedParts
import CloudTemplate.Proofs.Template.Sections

/-!
# Resources that are kept and resources that are lost

An expansion puts each resource under its new name.  If two resources get the same name, the later
one takes the place of the earlier, and of the earlier nothing is left.  Nothing else happens to
the list of resources: `Expander.KeepsResources` says that each resource has an entry of its own, in
the order of the template, and that what is neither evaluated nor renamed is copied.

## Main results

* `Expander.resolveTemplate_keeps_resources_iff`: all resources are kept, and have a place in the
  order, exactly if their new names are distinct.
* `Expander.resolveTemplate_loses_resource`: a resource is lost that gets the name of another one.
-/

namespace CloudTemplate

namespace Graph

/-- An order has one place for each entry of a list exactly if the entries are distinct. -/
theorem perm_order_iff {g : Graph} {resources order : List Text}
    (h : g.order resources = .ok order) : order.Perm resources ↔ resources.Nodup := by
  obtain ⟨hnodup, hmem⟩ := nodup_and_mem_of_order h
  exact ⟨fun hperm => hperm.nodup_iff.mp hnodup,
    fun hresources => (List.perm_ext_iff_of_nodup hnodup hresources).mpr hmem⟩

end Graph

namespace Template

/-- The attributes of a resource that an expansion evaluates or renames. -/
def expandedAttributes : List Text := "DependsOn" :: Expander.evaluatedAttributes

/-- What an expansion copies: the other attributes of a resource, and a resource that is no map. -/
def copiedPart : Value → Value
  | .map attributes => .map (attributes.filter fun field => !expandedAttributes.contains field.1)
  | v => v

end Template

namespace Expander

open Template

variable {e : Expander} {l : Location}

/-- Each resource has an entry of its own, in the same order, which stands under the new name of the
resource and holds what is copied of it. -/
def KeepsResources (e : Expander) (resources done : Fields Value) : Prop :=
  List.Forall₂ (fun resource entry =>
    entry.1 = e.newName resource.1 ∧ copiedPart entry.2 = copiedPart resource.2) resources done

/-! ### One resource -/

theorem eq_of_expandAttribute {key : Text} (hkey : expandedAttributes.contains key = false)
    {v done : Value} (hok : (e.expandAttribute l key v).result = .ok done) : done = v := by
  rw [expandedAttributes, List.contains_cons, Bool.or_eq_false_iff, beq_eq_false_iff_ne] at hkey
  obtain ⟨hdepends, hevaluated⟩ := hkey
  by_cases hmap : ∃ entries, v = .map entries
  · obtain ⟨entries, rfl⟩ := hmap
    rw [expandAttribute, if_neg (Bool.not_eq_true _ ▸ hevaluated)] at hok
    exact (Except.ok.inj hok).symm
  · rw [expandAttribute_of_ne_map fun entries hv => hmap ⟨entries, hv⟩, if_neg hdepends] at hok
    exact (Except.ok.inj hok).symm

theorem filter_expandAttributes {attributes done : Fields Value}
    (hok : (e.expandAttributes l attributes).result = .ok done) :
    done.filter (fun field => !expandedAttributes.contains field.1) =
      attributes.filter fun field => !expandedAttributes.contains field.1 := by
  induction attributes generalizing done with
  | nil =>
    rw [expandAttributes] at hok
    exact Except.ok.inj hok ▸ rfl
  | cons field rest ih =>
    obtain ⟨v, others, hv, hothers, rfl⟩ := expandAttributes_cons_eq_ok.mp hok
    rw [List.filter_cons, List.filter_cons, ih hothers]
    cases hkey : expandedAttributes.contains field.1 with
    | true => rfl
    | false => rw [eq_of_expandAttribute hkey hv]

theorem copiedPart_expandResource {name : Text} {v done : Value}
    (hok : (e.expandResource name v).result = .ok done) : copiedPart done = copiedPart v := by
  unfold expandResource at hok
  split at hok
  · rw [Recorded.result_map] at hok
    obtain ⟨expanded, hexpanded, rfl⟩ := map_eq_ok.mp hok
    rw [copiedPart, copiedPart, filter_expandAttributes hexpanded]
  · exact Except.ok.inj hok ▸ rfl

/-! ### All resources -/

theorem KeepsResources.names_eq {resources done : Fields Value}
    (h : e.KeepsResources resources done) : done.names = resources.names.map e.newName := by
  induction h with
  | nil => rfl
  | cons hentry _ ih =>
    rw [Fields.names, Fields.names] at ih
    rw [Fields.names, Fields.names, List.map_cons, List.map_cons, List.map_cons, hentry.1, ih]

theorem nodup_names_expandResources {resources before done : Fields Value}
    (hbefore : before.names.Nodup) (hok : (e.expandResources before resources).result = .ok done) :
    done.names.Nodup := by
  induction resources generalizing before with
  | nil =>
    rw [expandResources] at hok
    exact Except.ok.inj hok ▸ hbefore
  | cons resource rest ih =>
    rw [expandResources] at hok
    obtain ⟨v, -, hok⟩ := Recorded.result_bind_eq_ok.mp hok
    exact ih (Fields.nodup_names_set hbefore _ v) hok

/-- As long as new names are distinct, each resource goes to the end of those that are done. -/
theorem exists_added_of_expandResources {resources before done : Fields Value}
    (hnodup : (before.names ++ resources.names.map e.newName).Nodup)
    (hok : (e.expandResources before resources).result = .ok done) :
    ∃ added, done = before ++ added ∧ e.KeepsResources resources added := by
  induction resources generalizing before with
  | nil =>
    rw [expandResources] at hok
    exact ⟨[], by rw [List.append_nil, ← Except.ok.inj hok], .nil⟩
  | cons resource rest ih =>
    rw [expandResources] at hok
    obtain ⟨v, hv, hok⟩ := Recorded.result_bind_eq_ok.mp hok
    obtain ⟨hset, hnext⟩ := Fields.set_of_nodup hnodup v
    obtain ⟨added, rfl, hkeeps⟩ := ih hnext hok
    refine ⟨(e.newName resource.1, v) :: added, ?_,
      .cons ⟨rfl, copiedPart_expandResource hv⟩ hkeeps⟩
    rw [hset, List.append_assoc, List.singleton_append]

theorem nodup_names_nil : (Fields.names ([] : Fields Value)).Nodup :=
  List.nodup_nil

theorem keepsResources_iff {resources done : Fields Value}
    (hok : (e.expandResources [] resources).result = .ok done) :
    e.KeepsResources resources done ↔ (resources.names.map e.newName).Nodup := by
  constructor
  · exact fun hkeeps => hkeeps.names_eq ▸ nodup_names_expandResources nodup_names_nil hok
  · intro hnodup
    have hnil : (Fields.names ([] : Fields Value) ++ resources.names.map e.newName).Nodup := hnodup
    obtain ⟨added, rfl, hkeeps⟩ := exists_added_of_expandResources hnil hok
    exact hkeeps

/-- **Resources are kept exactly if their new names are distinct.**  If a template with a list of
resources is expanded, the document has a list of resources, too, in which no name occurs twice.
There each resource has an entry of its own, in the order of the template, under its new name and
with what is copied of it, if and only if no two resources have the same new name; and if the
resources can be put in order, then this order has a place for each of them under the same
condition. -/
theorem resolveTemplate_keeps_resources_iff {t : Template} {resources : Fields Value}
    (hresources : t.resources = some resources) {document : Value}
    (hok : (e.resolveTemplate t).1 = .ok document) :
    (∃ entries done : Fields Value, document = .map entries ∧
      entries.get? Section.resources.name = some (.map done) ∧ done.names.Nodup ∧
      (e.KeepsResources resources done ↔ (e.resourceNames t).Nodup)) ∧
    ∀ order, (e.resolveTemplate t).2.resourceOrder t = .ok order →
      (order.Perm (e.resourceNames t) ↔ (e.resourceNames t).Nodup) := by
  refine ⟨?_, fun order horder => Graph.perm_order_iff horder⟩
  rw [resolveTemplate, keep, Recorded.result_map] at hok
  obtain ⟨expanded, hexpanded, rfl⟩ := map_eq_ok.mp hok
  obtain ⟨-, -, hsection, -⟩ := sections_of_expand hexpanded
  rw [hresources, expandSection, Recorded.result_map] at hsection
  obtain ⟨done, hdone, hsection⟩ := map_eq_ok.mp hsection
  have hnames : e.resourceNames t = resources.names.map e.newName := by
    rw [resourceNames, Template.resourceNames, hresources, Option.getD_some]
  refine ⟨expanded.toEntries, done, rfl, ?_, ?_, ?_⟩
  · rw [get?_toEntries, content?, ← hsection, Option.map_some]
  · exact nodup_names_expandResources nodup_names_nil hdone
  · rw [hnames, keepsResources_iff hdone]

/-- Two resources exchange their names, and one of them depends on the other. -/
theorem resolveTemplate_keeps_resources_of_exchanged_names :
    let worker (dependency : Text) : Value :=
      .map [("Type", .string "Worker"), ("DependsOn", .string dependency)]
    let queue : Value := .map [("Type", .string "Queue")]
    let resources : Fields Value := [("A", worker "B"), ("B", queue)]
    let done : Fields Value := [("B", worker "A"), ("A", queue)]
    let t : Template := { resources := some resources }
    let start : Expander := { deployment := .ofTemplate (some t) }
    let e : Expander := start.renameAll [("A", "B"), ("B", "A")]
    (e.resolveTemplate t).1 = .ok (.map [("Resources", .map done)]) ∧
      e.KeepsResources resources done ∧
      (e.resolveTemplate t).2.resourceOrder t = .ok ["A", "B"] ∧
      (["A", "B"] : List Text).Perm (e.resourceNames t) := by
  intro worker queue resources done t start e
  have hok : (e.resolveTemplate t).1 = .ok (.map [("Resources", .map done)]) := by decide +kernel
  have hnodup : (e.resourceNames t).Nodup := by decide +kernel
  have horder : (e.resolveTemplate t).2.resourceOrder t = .ok ["A", "B"] := by decide +kernel
  obtain ⟨⟨entries, others, hdocument, hget, -, hkeeps⟩, hplaces⟩ :=
    resolveTemplate_keeps_resources_iff rfl hok
  obtain rfl := Value.map.inj hdocument
  obtain rfl : done = others := Value.map.inj (Option.some.inj hget)
  exact ⟨hok, hkeeps.mpr hnodup, horder, (hplaces _ horder).mpr hnodup⟩

/-- A resource gets the name of another one.  The document holds nothing of it, and the order has
one place for both. -/
theorem resolveTemplate_loses_resource :
    let resources : Fields Value :=
      [("A", .map [("Type", .string "Bucket")]), ("B", .map [("Type", .string "Queue")])]
    let t : Template := { resources := some resources }
    let start : Expander := { deployment := .ofTemplate (some t) }
    let e : Expander := start.rename "A" "B"
    let done : Fields Value := [("B", .map [("Type", .string "Queue")])]
    (e.resolveTemplate t).1 = .ok (.map [("Resources", .map done)]) ∧
      ¬ e.KeepsResources resources done ∧
      (e.resolveTemplate t).2.resourceOrder t = .ok ["B"] ∧
      ¬ (["B"] : List Text).Perm (e.resourceNames t) := by
  intro resources t start e done
  refine ⟨?document, ?lost, ?order, ?places⟩
  case document => decide +kernel
  case lost => exact fun hkeeps => absurd hkeeps.length_eq (by decide)
  case order => decide +kernel
  case places => exact fun hperm => absurd hperm.length_eq (by decide)

end Expander

end CloudTemplate
