import Mathlib.Data.List.Nodup
import CloudTemplate.Template
import CloudTemplate.Recorded

/-!
# The sections of a document

What a section of a template holds is found in its document under the name of the section
(`Template.get?_toEntries`), and in the document from which the template was read
(`Template.get?_of_ofDocument`).  `Template.ofEntries_eq_ok_iff` says which template a document is
read as.
-/

namespace CloudTemplate

theorem Value.nonNull?_eq_some_iff {u v : Value} : u.nonNull? = some v ↔ u = v ∧ v ≠ .null := by
  cases u <;> simp [nonNull?] <;> rintro rfl <;> simp

namespace Section

theorem mem_all (s : Section) : s ∈ all := by
  cases s <;> decide

/-- Different sections have different names. -/
theorem name_inj {s s' : Section} (h : s.name = s'.name) : s = s' :=
  List.inj_on_of_nodup_map (by decide : (all.map name).Nodup) (mem_all s) (mem_all s') h

end Section

namespace Template

/-- A section that is listed is found if it is present. -/
theorem get?_filterMap_content? (t : Template) (s : Section) (sections : List Section) :
    Fields.get? (sections.filterMap fun s => (t.content? s).map fun v => (s.name, v)) s.name =
      if s ∈ sections then t.content? s else none := by
  induction sections with
  | nil => rfl
  | cons first rest ih =>
    by_cases heq : s = first
    · subst heq
      cases hcontent : t.content? s with
      | none => simp [hcontent, ih]
      | some v => simp [hcontent, Fields.get?_cons]
    · have hname : first.name ≠ s.name := fun h => heq (Section.name_inj h).symm
      cases hcontent : t.content? first with
      | none => simp [hcontent, ih, heq]
      | some v => simp [hcontent, Fields.get?_cons, hname, ih, heq]

/-- What a section holds stands in the document under the name of the section. -/
theorem get?_toEntries (t : Template) (s : Section) : t.toEntries.get? s.name = t.content? s := by
  rw [toEntries, get?_filterMap_content?, if_pos s.mem_all]

/-! ### Reading a document -/

theorem freeSection_eq_some_iff {document : Fields Value} {s : Section} {v : Value} :
    freeSection document s = some v ↔ document.get? s.name = some v ∧ v ≠ .null := by
  rw [freeSection, Option.bind_eq_some_iff]
  simp only [Value.nonNull?_eq_some_iff]
  constructor
  · rintro ⟨u, hget, rfl, hnull⟩
    exact ⟨hget, hnull⟩
  · rintro ⟨hget, hnull⟩
    exact ⟨v, hget, rfl, hnull⟩

/-- A section that is a map is read like one that holds any value. -/
theorem mapSection_eq_ok_iff {document : Fields Value} {s : Section}
    {entries? : Option (Fields Value)} :
    mapSection document s = .ok entries? ↔ entries?.map .map = freeSection document s := by
  constructor
  · intro h
    unfold mapSection at h
    unfold freeSection
    split at h
    · next hget => exact Except.ok.inj h ▸ hget ▸ rfl
    · next hget => exact Except.ok.inj h ▸ hget ▸ rfl
    · next hget => exact Except.ok.inj h ▸ hget ▸ rfl
    · cases h
  · intro h
    cases entries? with
    | some entries => rw [mapSection, (freeSection_eq_some_iff.mp h.symm).1]
    | none =>
      have hnull : ∀ v, document.get? s.name = some v → v = .null := by
        intro v hget
        by_contra hnull
        rw [freeSection_eq_some_iff.mpr ⟨hget, hnull⟩] at h
        cases h
      rw [mapSection]
      cases hget : document.get? s.name with
      | none => rfl
      | some v => rw [hnull v hget]

theorem toValue_of_ofValue {name : Text} {v : Value} {p : Parameter}
    (h : Parameter.ofValue name v = .ok p) : p.toValue = v := by
  unfold Parameter.ofValue at h
  split at h
  · split at h
    · split at h
      · cases h
      · exact Except.ok.inj h ▸ rfl
    · cases h
  · cases h

theorem readParameters_cons_eq_ok {entry : Text × Value} {rest : Fields Value}
    {parameters : Fields Parameter} :
    readParameters (entry :: rest) = .ok parameters ↔
      ∃ p others, Parameter.ofValue entry.1 entry.2 = .ok p ∧ readParameters rest = .ok others ∧
        parameters = (entry.1, p) :: others := by
  simp only [readParameters, bind_pure_comp, bind_map_eq_ok]

/-- The declarations of parameters are kept as they were read. -/
theorem declarations_of_readParameters {entries : Fields Value} {parameters : Fields Parameter}
    (h : readParameters entries = .ok parameters) : declarations parameters = entries := by
  induction entries generalizing parameters with
  | nil => exact Except.ok.inj h ▸ rfl
  | cons entry rest ih =>
    obtain ⟨p, others, hp, hothers, rfl⟩ := readParameters_cons_eq_ok.mp h
    have hrest := ih hothers
    rw [declarations] at hrest
    rw [declarations, List.map_cons, hrest, toValue_of_ofValue hp]

/-- A template that is read holds what the document has. -/
theorem content?_and_readParameters_of_ofEntries {document : Fields Value} {t : Template}
    (h : ofEntries document = .ok t) :
    (∀ s, t.content? s = freeSection document s) ∧
      ∀ ps, t.parameters = some ps → readParameters (declarations ps) = .ok ps := by
  obtain ⟨declared, hdeclared, h⟩ := bind_eq_ok.mp h
  obtain ⟨metadata, hmetadata, h⟩ := bind_eq_ok.mp h
  extract_lets rest at h
  obtain ⟨parameters, hparameters, hread, h⟩ : ∃ parameters : Option (Fields Parameter),
      parameters.map (fun ps => .map (declarations ps)) = freeSection document .parameters ∧
        (∀ ps, parameters = some ps → readParameters (declarations ps) = .ok ps) ∧
          rest parameters = .ok t := by
    rw [← mapSection_eq_ok_iff.mp hdeclared]
    cases declared with
    | none => exact ⟨none, rfl, fun _ hsome => absurd hsome (by simp), h⟩
    | some entries =>
      obtain ⟨_, hread, h⟩ := bind_eq_ok.mp h
      obtain ⟨parameters, hparameters, rfl⟩ := map_eq_ok.mp hread
      have hdeclarations := declarations_of_readParameters hparameters
      refine ⟨some parameters, ?_, ?_, h⟩
      · rw [Option.map_some, Option.map_some, hdeclarations]
      · rintro _ ⟨rfl⟩
        rw [hdeclarations, hparameters]
  obtain ⟨mappings, hmappings, h⟩ := bind_eq_ok.mp h
  obtain ⟨conditions, hconditions, h⟩ := bind_eq_ok.mp h
  obtain ⟨resources, hresources, h⟩ := bind_eq_ok.mp h
  obtain ⟨outputs, houtputs, h⟩ := bind_eq_ok.mp h
  obtain ⟨globals, hglobals, h⟩ := bind_eq_ok.mp h
  obtain rfl := Except.ok.inj h
  refine ⟨fun s => ?_, hread⟩
  cases s with
  | formatVersion | transform | description => rfl
  | metadata => exact mapSection_eq_ok_iff.mp hmetadata
  | parameters => exact hparameters
  | mappings => exact mapSection_eq_ok_iff.mp hmappings
  | conditions => exact mapSection_eq_ok_iff.mp hconditions
  | globals => exact mapSection_eq_ok_iff.mp hglobals
  | resources => exact mapSection_eq_ok_iff.mp hresources
  | outputs => exact mapSection_eq_ok_iff.mp houtputs

/-- A template that holds what a document has is what the document is read as. -/
theorem ofEntries_of_content? {document : Fields Value} {t : Template}
    (hcontent : ∀ s, t.content? s = freeSection document s)
    (hread : ∀ ps, t.parameters = some ps → readParameters (declarations ps) = .ok ps) :
    ofEntries document = .ok t := by
  have hdeclared : mapSection document .parameters = .ok (t.parameters.map declarations) := by
    rw [mapSection_eq_ok_iff, ← hcontent, content?, Option.map_map]
    rfl
  obtain ⟨formatVersion, transform, description, metadata, parameters, mappings, conditions,
    globals, resources, outputs⟩ := t
  have hformat : formatVersion = freeSection document .formatVersion := hcontent .formatVersion
  have htransform : transform = freeSection document .transform := hcontent .transform
  have hdescription : description = freeSection document .description := hcontent .description
  have hmetadata := mapSection_eq_ok_iff.mpr (hcontent .metadata)
  have hmappings := mapSection_eq_ok_iff.mpr (hcontent .mappings)
  have hconditions := mapSection_eq_ok_iff.mpr (hcontent .conditions)
  have hglobals := mapSection_eq_ok_iff.mpr (hcontent .globals)
  have hresources := mapSection_eq_ok_iff.mpr (hcontent .resources)
  have houtputs := mapSection_eq_ok_iff.mpr (hcontent .outputs)
  rw [ofEntries, hdeclared, hformat, htransform, hdescription, hmetadata, hmappings, hconditions,
    hglobals, hresources, houtputs]
  cases parameters with
  | none => rfl
  | some ps =>
    dsimp only [Option.map_some, Bind.bind, Except.bind]
    rw [hread ps rfl]
    rfl

/-- **A document is read as the template that holds what stands in it.**  Every section of the
template holds what the document has under its name, unless that is null, and the parameters are
those that their own declarations make up. -/
theorem ofEntries_eq_ok_iff {document : Fields Value} {t : Template} :
    ofEntries document = .ok t ↔ (∀ s, t.content? s = freeSection document s) ∧
      ∀ ps, t.parameters = some ps → readParameters (declarations ps) = .ok ps :=
  ⟨content?_and_readParameters_of_ofEntries, fun h => ofEntries_of_content? h.1 h.2⟩

/-- Every section of a template holds what the document has under its name, unless that is null. -/
theorem content?_of_ofEntries {document : Fields Value} {t : Template}
    (h : ofEntries document = .ok t) (s : Section) : t.content? s = freeSection document s :=
  (ofEntries_eq_ok_iff.mp h).1 s

/-- What a section of a template holds stands in the document under the name of the section. -/
theorem get?_of_ofDocument {d v : Value} {t : Template} (h : ofDocument d = .ok t) {s : Section}
    (hv : t.content? s = some v) :
    ∃ document : Fields Value, d = .map document ∧ document.get? s.name = some v := by
  unfold ofDocument at h
  split at h
  · obtain rfl := Except.ok.inj h
    cases s <;> cases hv
  · next document =>
    rw [content?_of_ofEntries h] at hv
    exact ⟨document, rfl, (freeSection_eq_some_iff.mp hv).1⟩
  · cases h

end Template

end CloudTemplate
