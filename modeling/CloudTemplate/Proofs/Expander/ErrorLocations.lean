import CloudTemplate.Expander.Session
import CloudTemplate.Proofs.Evaluation.FirstFailure
import CloudTemplate.Proofs.Expander.RenamedTemplate
import CloudTemplate.Proofs.Template.Sections

/-!
# Where the expansion of a template fails

The sections of a template are expanded one after the other, and in each of them calls are
evaluated.  `Expander.callsOfTemplate` lists these calls in the order of their evaluation.  If the
expansion fails, then with the error of the first of them that fails, and the location of the error
is that of this call in the document.

## Main results

* `Expander.forall_isIn_callsOfTemplate`: the calls stand in the document that was read.
* `Expander.resolveDocument_fails_at_first`: an expansion fails with the error of the first call
  that fails.
-/

namespace CloudTemplate.Expander

open Intrinsic (Error)

variable {e : Expander} {steps : List Location.Step}

/-! ### The calls of a template in the order of their evaluation -/

/-- The calls in an attribute of a resource. -/
def callsOfAttribute (e : Expander) (steps : List Location.Step) (key : Text) :
    Value → List CallSite
  | .map entries =>
    if evaluatedAttributes.contains key then e.callsInEntries (steps ++ [.entry key]) entries
    else []
  | _ => []

/-- The calls in a resource. -/
def callsOfResource (e : Expander) (steps : List Location.Step) : Value → List CallSite
  | .map attributes => attributes.flatMap fun field => e.callsOfAttribute steps field.1 field.2
  | _ => []

/-- The calls in an export. -/
def callsOfExport (e : Expander) (steps : List Location.Step) (entries : Fields Value) :
    List CallSite :=
  match entries.get? "Name" with
  | none => []
  | some v => e.callsAt (steps ++ [.entry "Name"]) v

/-- The calls in an attribute of an output. -/
def callsOfOutputAttribute (e : Expander) (steps : List Location.Step) (key : Text) (v : Value) :
    List CallSite :=
  if key = "Value" then e.callsAt (steps ++ [.entry key]) v
  else
    match v with
    | .map entries => if key = "Export" then e.callsOfExport (steps ++ [.entry key]) entries else []
    | _ => []

/-- The calls in an output. -/
def callsOfOutput (e : Expander) (steps : List Location.Step) : Value → List CallSite
  | .map attributes =>
    attributes.flatMap fun field => e.callsOfOutputAttribute steps field.1 field.2
  | _ => []

/-- The calls in a section of which each entry has its own calls. -/
def callsOfSection (s : Section) (calls : List Location.Step → Value → List CallSite)
    (section? : Option (Fields Value)) : List CallSite :=
  (section?.getD []).flatMap fun entry => calls [.entry s.name, .entry entry.1] entry.2

/-- The calls of a template in the order of their evaluation. -/
def callsOfTemplate (e : Expander) (t : Template) : List CallSite :=
  callsOfSection .metadata e.callsAt t.metadata ++
    callsOfSection .conditions e.callsAt t.conditions ++
    callsOfSection .resources e.callsOfResource t.resources ++
    callsOfSection .outputs e.callsOfOutput t.outputs

/-! ### Where the calls stand -/

section Places

variable {d : Value}

theorem forall_isIn_callsInEntries_of_hasAt {entries : Fields Value}
    (hat : d.HasAt steps (.map entries)) : ∀ site ∈ e.callsInEntries steps entries, site.IsIn d :=
  forall_isIn_callsInEntries (fun _ _ _ hat => forall_isIn_callsAt hat)
    fun _ hentry => hat.entry hentry

theorem forall_isIn_callsOfResource {v : Value} (hat : d.HasAt steps v) :
    ∀ site ∈ e.callsOfResource steps v, site.IsIn d := by
  cases v with
  | map attributes =>
    rw [callsOfResource, List.forall_mem_flatMap]
    rintro ⟨key, v⟩ hfield
    dsimp only
    unfold callsOfAttribute
    split
    · split
      · exact forall_isIn_callsInEntries_of_hasAt (hat.entry hfield)
      · exact List.forall_mem_nil _
    · exact List.forall_mem_nil _
  | null | bool | int | double | string | list => exact List.forall_mem_nil _

theorem forall_isIn_callsOfExport {entries : Fields Value} (hat : d.HasAt steps (.map entries)) :
    ∀ site ∈ e.callsOfExport steps entries, site.IsIn d := by
  rw [callsOfExport]
  split
  · exact List.forall_mem_nil _
  · next hname => exact forall_isIn_callsAt (hat.entry (Fields.mem_of_get? hname))

theorem forall_isIn_callsOfOutput {v : Value} (hat : d.HasAt steps v) :
    ∀ site ∈ e.callsOfOutput steps v, site.IsIn d := by
  cases v with
  | map attributes =>
    rw [callsOfOutput, List.forall_mem_flatMap]
    rintro ⟨key, v⟩ hfield
    dsimp only
    unfold callsOfOutputAttribute
    split
    · exact forall_isIn_callsAt (hat.entry hfield)
    · split
      · split
        · exact forall_isIn_callsOfExport (hat.entry hfield)
        · exact List.forall_mem_nil _
      · exact List.forall_mem_nil _
  | null | bool | int | double | string | list => exact List.forall_mem_nil _

theorem forall_isIn_callsOfSection {t : Template} (hd : Template.ofDocument d = .ok t) {s : Section}
    {section? : Option (Fields Value)} (hsection : t.content? s = section?.map .map)
    {calls : List Location.Step → Value → List CallSite}
    (hcalls : ∀ {steps v}, d.HasAt steps v → ∀ site ∈ calls steps v, site.IsIn d) :
    ∀ site ∈ callsOfSection s calls section?, site.IsIn d := by
  cases section? with
  | none => exact List.forall_mem_nil _
  | some entries =>
    obtain ⟨document, rfl, hget⟩ := Template.get?_of_ofDocument hd hsection
    rw [callsOfSection, Option.getD_some, List.forall_mem_flatMap]
    intro entry hentry
    exact hcalls ((Value.HasAt.root.entry (Fields.mem_of_get? hget)).entry hentry)

/-- The calls of a template stand in the document from which it was read. -/
theorem forall_isIn_callsOfTemplate {t : Template} (hd : Template.ofDocument d = .ok t) :
    ∀ site ∈ e.callsOfTemplate t, site.IsIn d := by
  simp only [callsOfTemplate, List.forall_mem_append]
  exact ⟨⟨⟨forall_isIn_callsOfSection hd rfl forall_isIn_callsAt,
    forall_isIn_callsOfSection hd rfl forall_isIn_callsAt⟩,
    forall_isIn_callsOfSection hd rfl forall_isIn_callsOfResource⟩,
    forall_isIn_callsOfSection hd rfl forall_isIn_callsOfOutput⟩

end Places

/-! ### The first call that fails decides the expansion -/

theorem isRoot_along_section (s : Section) (steps : List Location.Step) :
    (Location.root.along (.entry s.name :: steps)).isRoot = false :=
  Location.isRoot_along (l := Location.root.entry s.name) (by cases s <;> decide) steps

theorem callsOfSection_callsAt (s : Section) (entries : Fields Value) :
    callsOfSection s e.callsAt (some entries) = e.callsInEntries [.entry s.name] entries := by
  rw [callsOfSection, Option.getD_some]
  induction entries with
  | nil => rfl
  | cons entry rest ih =>
    rw [List.flatMap_cons, callsInEntries, ih]
    rfl

/-- A section is decided by its calls if its entries are, when it is present. -/
theorem isDecidedBy_expandSection {s : Section}
    {calls : List Location.Step → Value → List CallSite}
    {expand : Fields Value → Recorded Edge Error (Fields Value)}
    (h : ∀ entries, e.IsDecidedBy (callsOfSection s calls (some entries)) (expand entries).result)
    (section? : Option (Fields Value)) :
    e.IsDecidedBy (callsOfSection s calls section?) (expandSection expand section?).result := by
  cases section? with
  | none => exact .pure _
  | some entries => exact (h entries).map some

section Decided

variable (hr : e.renames = [])
include hr

theorem isDecidedBy_entries (hroot : (Location.root.along steps).isRoot = false)
    (entries : Fields Value) :
    e.IsDecidedBy (e.callsInEntries steps entries)
      (e.evaluateEntries (Location.root.along steps) entries).result :=
  isDecidedBy_evaluateEntries (fun entry _ => callsDecide hr entry.2) hroot

theorem isDecidedBy_expandAttribute (hroot : (Location.root.along steps).isRoot = false)
    (key : Text) (v : Value) :
    e.IsDecidedBy (e.callsOfAttribute steps key v)
      (e.expandAttribute (Location.root.along steps) key v).result := by
  by_cases hmap : ∃ entries, v = .map entries
  · obtain ⟨entries, rfl⟩ := hmap
    rw [callsOfAttribute, expandAttribute]
    split
    · rw [Location.entry_along]
      exact (isDecidedBy_entries hr (Location.isRoot_along_concat hroot _) entries).map Value.map
    · exact .pure _
  · have hne : ∀ entries, v ≠ .map entries := fun entries hv => hmap ⟨entries, hv⟩
    rw [expandAttribute_of_ne_map hne, callsOfAttribute]
    · exact .pure _
    · exact hne

theorem isDecidedBy_expandAttributes (hroot : (Location.root.along steps).isRoot = false)
    (attributes : Fields Value) :
    e.IsDecidedBy (e.callsOfResource steps (.map attributes))
      (e.expandAttributes (Location.root.along steps) attributes).result := by
  induction attributes with
  | nil =>
    rw [expandAttributes]
    exact .pure _
  | cons field rest ih =>
    rw [callsOfResource, List.flatMap_cons, expandAttributes_cons]
    exact (isDecidedBy_expandAttribute hr hroot field.1 field.2).bind fun v _ =>
      ih.map (List.cons (field.1, v))

theorem isDecidedBy_expandResource (name : Text) (v : Value) :
    e.IsDecidedBy (e.callsOfResource [.entry "Resources", .entry name] v)
      (e.expandResource name v).result := by
  have hroot : (Location.root.along [.entry "Resources", .entry name]).isRoot = false :=
    isRoot_along_section .resources _
  cases v with
  | map attributes =>
    rw [expandResource]
    exact (isDecidedBy_expandAttributes hr hroot attributes).map Value.map
  | null | bool | int | double | string | list => exact .pure _

theorem isDecidedBy_expandResources (before resources : Fields Value) :
    e.IsDecidedBy (callsOfSection .resources e.callsOfResource (some resources))
      (e.expandResources before resources).result := by
  induction resources generalizing before with
  | nil =>
    rw [expandResources]
    exact .pure _
  | cons resource rest ih =>
    rw [callsOfSection, Option.getD_some, List.flatMap_cons, expandResources,
      newName_of_renames_nil hr]
    exact (isDecidedBy_expandResource hr resource.1 resource.2).bind fun v _ =>
      ih (before.set resource.1 v)

theorem isDecidedBy_expandExport (hroot : (Location.root.along steps).isRoot = false)
    (entries : Fields Value) :
    e.IsDecidedBy (e.callsOfExport steps entries)
      (e.expandExport (Location.root.along steps) entries).result := by
  rw [callsOfExport, expandExport]
  cases entries.get? "Name" with
  | none => exact .pure _
  | some v =>
    rw [Location.entry_along]
    exact (callsDecide hr v _ (Location.isRoot_along_concat hroot _)).bind_pure _

theorem isDecidedBy_expandOutputAttribute (hroot : (Location.root.along steps).isRoot = false)
    (key : Text) (v : Value) :
    e.IsDecidedBy (e.callsOfOutputAttribute steps key v)
      (e.expandOutputAttribute (Location.root.along steps) key v).result := by
  have hentry : (Location.root.along (steps ++ [.entry key])).isRoot = false :=
    Location.isRoot_along_concat hroot _
  rw [callsOfOutputAttribute.eq_def, expandOutputAttribute.eq_def, Location.entry_along]
  by_cases hvalue : key = "Value"
  · rw [if_pos hvalue, if_pos hvalue]
    exact (callsDecide hr v _ hentry).map _
  · rw [if_neg hvalue, if_neg hvalue]
    cases v with
    | map entries =>
      by_cases hexport : key = "Export"
      · simp only [if_pos hexport]
        exact (isDecidedBy_expandExport hr hentry entries).map _
      · simp only [if_neg hexport]
        exact .pure _
    | null | bool | int | double | string | list => exact .pure _

theorem isDecidedBy_expandOutputAttributes (hroot : (Location.root.along steps).isRoot = false)
    (attributes : Fields Value) :
    e.IsDecidedBy (e.callsOfOutput steps (.map attributes))
      (e.expandOutputAttributes (Location.root.along steps) attributes).result := by
  induction attributes with
  | nil =>
    rw [expandOutputAttributes]
    exact .pure _
  | cons field rest ih =>
    rw [callsOfOutput, List.flatMap_cons, expandOutputAttributes_cons]
    exact (isDecidedBy_expandOutputAttribute hr hroot field.1 field.2).bind fun expanded _ =>
      ih.map (expanded ++ ·)

theorem isDecidedBy_expandOutput (name : Text) (v : Value) :
    e.IsDecidedBy (e.callsOfOutput [.entry "Outputs", .entry name] v)
      (e.expandOutput name v).result := by
  have hroot : (Location.root.along [.entry "Outputs", .entry name]).isRoot = false :=
    isRoot_along_section .outputs _
  cases v with
  | map attributes =>
    rw [expandOutput]
    exact (isDecidedBy_expandOutputAttributes hr hroot attributes).map Value.map
  | null | bool | int | double | string | list => exact .pure _

theorem isDecidedBy_expandOutputs (outputs : Fields Value) :
    e.IsDecidedBy (callsOfSection .outputs e.callsOfOutput (some outputs))
      (e.expandOutputs outputs).result := by
  induction outputs with
  | nil =>
    rw [expandOutputs]
    exact .pure _
  | cons output rest ih =>
    rw [callsOfSection, Option.getD_some, List.flatMap_cons, expandOutputs_cons]
    exact (isDecidedBy_expandOutput hr output.1 output.2).bind fun v _ =>
      ih.map (List.cons (output.1, v))

theorem isDecidedBy_evaluatedSection (s : Section) (section? : Option (Fields Value)) :
    e.IsDecidedBy (callsOfSection s e.callsAt section?)
      (expandSection (e.evaluateEntries (sectionLocation s)) section?).result := by
  refine isDecidedBy_expandSection (fun entries => ?_) section?
  rw [callsOfSection_callsAt]
  exact isDecidedBy_entries hr (isRoot_along_section s []) entries

theorem isDecidedBy_expand (t : Template) :
    e.IsDecidedBy (e.callsOfTemplate t) (e.expand t).result := by
  have hmetadata := isDecidedBy_evaluatedSection hr .metadata t.metadata
  have hconditions := isDecidedBy_evaluatedSection hr .conditions t.conditions
  have hresources := isDecidedBy_expandSection (isDecidedBy_expandResources hr []) t.resources
  have houtputs := isDecidedBy_expandSection (isDecidedBy_expandOutputs hr) t.outputs
  rw [callsOfTemplate, List.append_assoc, List.append_assoc, expand]
  refine hmetadata.bind fun metadata _ => hconditions.bind fun conditions _ =>
    hresources.bind fun resources _ => houtputs.bind_pure _

omit hr in
/-- If a call in a document cannot be evaluated, then the document is a template. -/
theorem exists_template_of_resolveDocument {d : Value} {err : Error}
    (h : (e.resolveDocument d).1 = .error (.evaluation err)) :
    ∃ t, Template.ofDocument d = .ok t ∧ (e.expand t).result = .error err := by
  by_cases hnull : d = .null
  · subst hnull
    cases h
  · rw [resolveDocument, Template.ofDocument?_of_ne_null hnull] at h
    cases hd : Template.ofDocument d with
    | error fault =>
      rw [hd] at h
      cases h
    | ok t =>
      rw [hd] at h
      have hresult : some <$> (e.resolveTemplate t).1.mapError DocumentError.evaluation =
          .error (.evaluation err) := h
      rw [resolveTemplate, keep, Recorded.result_map] at hresult
      cases hexpanded : (e.expand t).result with
      | ok expanded =>
        rw [hexpanded] at hresult
        cases hresult
      | error other =>
        rw [hexpanded] at hresult
        obtain rfl : other = err := DocumentError.evaluation.inj (Except.error.inj hresult)
        exact ⟨t, rfl, hexpanded⟩

/-- **An expansion fails at the first call that fails.**  If an expander without new names fails to
expand the template in a document, the error is located at a call that stands in the document.  All
calls that are evaluated before it, those in its argument among them, succeed or are left as they
stand; its own handler gives the error, up to the location, for what its argument evaluates to; and
no call around it changes the location. -/
theorem resolveDocument_fails_at_first {d : Value} {err : Error}
    (h : (e.resolveDocument d).1 = .error (.evaluation err)) :
    ∃ t, Template.ofDocument d = .ok t ∧ ∃ earlier site later,
      e.callsOfTemplate t = earlier ++ site :: later ∧ site.IsIn d ∧
        (∀ other ∈ earlier, e.Succeeds other) ∧ e.FailsWith site err := by
  obtain ⟨t, hd, hresult⟩ := exists_template_of_resolveDocument h
  have hdecided := isDecidedBy_expand hr t
  rw [hresult] at hdecided
  obtain ⟨-⟩ | ⟨hsites, hearlier, hsite⟩ := hdecided
  have hplaces := forall_isIn_callsOfTemplate (e := e) hd
  rw [hsites, List.forall_mem_append, List.forall_mem_cons] at hplaces
  exact ⟨t, hd, _, _, _, hsites, hplaces.2.1, hearlier, hsite⟩

end Decided

/-- A call fails deep inside the name of an export, behind a call that succeeds and one that is left
as it stands.  The value of the output holds a call that would fail, too, but comes later. -/
theorem resolveDocument_fails_at_first_of_export :
    let missing : Value := .call "Fn::GetAtt" (.string "Topic.Arn")
    let queue : Value := .map [("Properties", .map [("Zones", .call "Fn::GetAZs" missing)])]
    let branches : Value := .list [.string "Big", .call "Ref" (.string "Queue"), missing]
    let name : Value := .call "Fn::Join"
      (.list [.string "-", .list [.string "url", .call "Fn::If" branches]])
    let url : Value := .map [("Export", .map [("Name", name)]), ("Value", .call "Ref" .null)]
    let t : Template := {
      resources := some [("Queue", queue)]
      outputs := some [("Url", url)] }
    let e : Expander := { deployment := .ofTemplate (some t) }
    let err : Error := {
      function := "Fn::GetAtt"
      fault := .noResource "Topic"
      location := some ⟨"Outputs.Url.Export.Name.Fn::Join[1][1].Fn::If[2]"⟩ }
    (e.resolveDocument t.toDocument).1 = .error (.evaluation err) ∧
      ∃ t', Template.ofDocument t.toDocument = .ok t' ∧ ∃ earlier site later,
        e.callsOfTemplate t' = earlier ++ site :: later ∧ site.IsIn t.toDocument ∧
          (∀ other ∈ earlier, e.Succeeds other) ∧ e.FailsWith site err := by
  intro missing queue branches name url t e err
  have hfails : (e.resolveDocument t.toDocument).1 = .error (.evaluation err) := by decide +kernel
  exact ⟨hfails, resolveDocument_fails_at_first rfl hfails⟩

end CloudTemplate.Expander
