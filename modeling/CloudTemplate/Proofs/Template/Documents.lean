import CloudTemplate.Proofs.Template.Sections

/-!
# Documents of templates

A document is a template unless there is a fault in it: the document itself, a section that has to
be a map or the declaration of a parameter is no map, or the type of a parameter is no proper
string.  `Template.HasFault` says where such a fault lies, without reading the document.

A document without a fault is read.  What is written for the template are the known sections of the
document that are not null, each as it was, in their conventional order; sections that are not known
are left out.  Reading what was written gives the same template again.

## Main results

* `Template.ofDocument_reads_back`: which documents are refused and for what reason, what is written
  for the others, and that it is read back.
-/

namespace CloudTemplate

/-- Whether a section has to be a map; the others hold any value. -/
def Section.isMap : Section → Bool
  | formatVersion | transform | description => false
  | metadata | parameters | mappings | conditions | globals | resources | outputs => true

namespace Template

/-- The fault lies in the document. -/
inductive HasFault : Value → TemplateError → Prop
  | document {d : Value} (hnull : d ≠ .null) (hmap : d.map? = none) : HasFault d (.document d)
  | section {document : Fields Value} {s : Section} {v : Value} (hs : s.isMap = true)
      (hv : document.get? s.name = some v) (hnull : v ≠ .null) (hmap : v.map? = none) :
      HasFault (.map document) (.section s.name v)
  | parameter {document declared : Fields Value} {name : Text} {v : Value}
      (hdeclared : document.get? Section.parameters.name = some (.map declared))
      (hv : (name, v) ∈ declared) (hmap : v.map? = none) :
      HasFault (.map document) (.parameter name v)
  | parameterType {document declared declaration : Fields Value} {name : Text} {type : Value}
      (hdeclared : document.get? Section.parameters.name = some (.map declared))
      (hv : (name, .map declaration) ∈ declared) (htype : declaration.get? "Type" = some type)
      (hempty : ∀ text, type = .string text → text = []) :
      HasFault (.map document) (.parameterType name type)

variable {document declared : Fields Value} {t : Template} {fault : TemplateError}

/-! ### Sections that are maps -/

theorem mapSection_eq_error_iff {s : Section} :
    mapSection document s = .error fault ↔ ∃ v, document.get? s.name = some v ∧ v ≠ .null ∧
      v.map? = none ∧ fault = .section s.name v := by
  rw [mapSection]
  cases document.get? s.name with
  | none => simp
  | some v => cases v <;> simp [Value.map?, eq_comm]

theorem hasFault_of_mapSection {s : Section} (hs : s.isMap = true)
    (h : mapSection document s = .error fault) : HasFault (.map document) fault := by
  obtain ⟨v, hget, hnull, hmap, rfl⟩ := mapSection_eq_error_iff.mp h
  exact .section hs hget hnull hmap

/-- What a template holds in a section that has to be a map is a map. -/
theorem map?_ne_none_of_content? {s : Section} (hs : s.isMap = true) {v : Value}
    (h : t.content? s = some v) : v.map? ≠ none := by
  cases s with
  | formatVersion | transform | description => cases hs
  | metadata | parameters | mappings | conditions | globals | resources | outputs =>
    obtain ⟨entries, -, rfl⟩ := Option.map_eq_some_iff.mp h
    simp [Value.map?]

/-! ### Declarations of parameters -/

theorem ofValue_eq_error_iff {name : Text} {v : Value} :
    Parameter.ofValue name v = .error fault ↔
      (v.map? = none ∧ fault = .parameter name v) ∨
      ∃ declaration type, v = .map declaration ∧ Fields.get? declaration "Type" = some type ∧
        (∀ text, type = .string text → text = []) ∧ fault = .parameterType name type := by
  cases v with
  | map declaration =>
    rw [Parameter.ofValue]
    cases htype : Fields.get? declaration "Type" with
    | none =>
      have hdefault : Parameter.defaultType.isEmpty = false := by decide
      simp [Value.map?, htype, hdefault]
    | some type =>
      cases type with
      | string text => cases text <;> simp [Value.map?, htype, eq_comm]
      | null | bool | int | double | list | map => simp [Value.map?, htype, eq_comm]
  | null | bool | int | double | string | list => simp [Parameter.ofValue, Value.map?, eq_comm]

/-- If declarations are refused, one of them is, for the same reason. -/
theorem exists_of_readParameters_eq_error (h : readParameters declared = .error fault) :
    ∃ entry ∈ declared, Parameter.ofValue entry.1 entry.2 = .error fault := by
  induction declared with
  | nil => cases h
  | cons entry rest ih =>
    rcases bind_eq_error.mp h with h | ⟨p, -, h⟩
    · exact ⟨entry, List.mem_cons_self, h⟩
    · rcases bind_eq_error.mp h with h | ⟨others, -, h⟩
      · obtain ⟨found, hfound, h⟩ := ih h
        exact ⟨found, List.mem_cons_of_mem _ hfound, h⟩
      · cases h

/-- If declarations are read, every one of them is. -/
theorem exists_of_readParameters_eq_ok {parameters : Fields Parameter}
    (h : readParameters declared = .ok parameters) :
    ∀ entry ∈ declared, ∃ p, Parameter.ofValue entry.1 entry.2 = .ok p := by
  induction declared generalizing parameters with
  | nil => exact List.forall_mem_nil _
  | cons entry rest ih =>
    obtain ⟨p, others, hp, hothers, -⟩ := readParameters_cons_eq_ok.mp h
    exact List.forall_mem_cons.mpr ⟨⟨p, hp⟩, ih hothers⟩

theorem hasFault_of_readParameters
    (hdeclared : document.get? Section.parameters.name = some (.map declared))
    (h : readParameters declared = .error fault) : HasFault (.map document) fault := by
  obtain ⟨⟨name, v⟩, hmem, h⟩ := exists_of_readParameters_eq_error h
  rcases ofValue_eq_error_iff.mp h with ⟨hmap, rfl⟩ | ⟨declaration, type, rfl, htype, hempty, rfl⟩
  · exact .parameter hdeclared hmem hmap
  · exact .parameterType hdeclared hmem htype hempty

/-! ### Whole documents -/

/-- The fault for which entries are refused lies in them. -/
theorem hasFault_of_ofEntries (h : ofEntries document = .error fault) :
    HasFault (.map document) fault := by
  rcases bind_eq_error.mp h with h | ⟨declared?, hdeclared, h⟩
  · exact hasFault_of_mapSection rfl h
  rcases bind_eq_error.mp h with h | ⟨metadata, -, h⟩
  · exact hasFault_of_mapSection rfl h
  extract_lets rest at h
  obtain hread | ⟨parameters, h⟩ : HasFault (.map document) fault ∨
      ∃ parameters, rest parameters = .error fault := by
    cases declared? with
    | none => exact .inr ⟨none, h⟩
    | some declared =>
      rcases bind_eq_error.mp h with h | ⟨parameters, -, h⟩
      · have hget := freeSection_eq_some_iff.mp (mapSection_eq_ok_iff.mp hdeclared).symm
        exact .inl (hasFault_of_readParameters hget.1 (map_eq_error.mp h))
      · exact .inr ⟨parameters, h⟩
  · exact hread
  rcases bind_eq_error.mp h with h | ⟨mappings, -, h⟩
  · exact hasFault_of_mapSection rfl h
  rcases bind_eq_error.mp h with h | ⟨conditions, -, h⟩
  · exact hasFault_of_mapSection rfl h
  rcases bind_eq_error.mp h with h | ⟨resources, -, h⟩
  · exact hasFault_of_mapSection rfl h
  rcases bind_eq_error.mp h with h | ⟨outputs, -, h⟩
  · exact hasFault_of_mapSection rfl h
  rcases bind_eq_error.mp h with h | ⟨globals, -, h⟩
  · exact hasFault_of_mapSection rfl h
  cases h

/-- No fault lies in entries that are read. -/
theorem not_hasFault_of_ofEntries (h : ofEntries document = .ok t) :
    ¬ HasFault (.map document) fault := by
  obtain ⟨hcontent, hread⟩ := ofEntries_eq_ok_iff.mp h
  have hvalid {declared : Fields Value}
      (hdeclared : document.get? Section.parameters.name = some (.map declared)) :
      ∀ entry ∈ declared, ∃ p, Parameter.ofValue entry.1 entry.2 = .ok p := by
    have hsome : freeSection document .parameters = some (.map declared) :=
      freeSection_eq_some_iff.mpr ⟨hdeclared, by simp⟩
    obtain ⟨parameters, hparameters, heq⟩ :=
      Option.map_eq_some_iff.mp ((hcontent .parameters).trans hsome)
    obtain rfl := Value.map.inj heq
    exact exists_of_readParameters_eq_ok (hread _ hparameters)
  intro hfault
  cases hfault with
  | document _ hmap => cases hmap
  | «section» hs hv hnull hmap =>
    have hsome := (hcontent _).trans (freeSection_eq_some_iff.mpr ⟨hv, hnull⟩)
    exact map?_ne_none_of_content? hs hsome hmap
  | parameter hdeclared hv hmap =>
    obtain ⟨p, hp⟩ := hvalid hdeclared _ hv
    rw [ofValue_eq_error_iff.mpr (.inl ⟨hmap, rfl⟩)] at hp
    cases hp
  | parameterType hdeclared hv htype hempty =>
    obtain ⟨p, hp⟩ := hvalid hdeclared _ hv
    rw [ofValue_eq_error_iff.mpr (.inr ⟨_, _, rfl, htype, hempty, rfl⟩)] at hp
    cases hp

/-- The fault for which a document is refused lies in it. -/
theorem hasFault_of_ofDocument {d : Value} (h : ofDocument d = .error fault) :
    HasFault d fault := by
  unfold ofDocument at h
  split at h
  · cases h
  · exact hasFault_of_ofEntries h
  · next hnull hmap =>
    obtain rfl := Except.error.inj h
    refine .document hnull ?_
    cases d with
    | map entries => exact absurd rfl (hmap entries)
    | null | bool | int | double | string | list => rfl

/-- No fault lies in a document that is read. -/
theorem not_hasFault_of_ofDocument {d : Value} (h : ofDocument d = .ok t) :
    ¬ HasFault d fault := by
  unfold ofDocument at h
  split at h
  · intro hfault
    cases hfault with
    | document hnull _ => exact hnull rfl
  · exact not_hasFault_of_ofEntries h
  · cases h

/-! ### What is written -/

/-- What a template holds stands in its document, and its parameters are what their declarations
make up. -/
theorem content?_of_ofDocument {d : Value} (h : ofDocument d = .ok t) :
    (∀ s v, t.content? s = some v ↔
      v ≠ .null ∧ ∃ document : Fields Value, d = .map document ∧ document.get? s.name = some v) ∧
    ∀ parameters, t.parameters = some parameters →
      readParameters (declarations parameters) = .ok parameters := by
  unfold ofDocument at h
  split at h
  · obtain rfl := Except.ok.inj h
    refine ⟨fun s v => ?_, fun parameters hparameters => by cases hparameters⟩
    cases s <;> simp [content?]
  · next document =>
    obtain ⟨hcontent, hread⟩ := ofEntries_eq_ok_iff.mp h
    refine ⟨fun s v => ?_, hread⟩
    rw [hcontent, freeSection_eq_some_iff, and_comm]
    simp
  · cases h

theorem mem_toEntries_iff {name : Text} {v : Value} :
    (name, v) ∈ t.toEntries ↔ ∃ s : Section, s.name = name ∧ t.content? s = some v := by
  rw [toEntries, List.mem_filterMap]
  simp [Section.mem_all, and_comm]

/-- The sections are written in their conventional order, each of them once. -/
theorem names_toEntries_sublist (t : Template) :
    t.toEntries.names.Sublist (Section.all.map Section.name) := by
  rw [toEntries]
  induction Section.all with
  | nil => exact .slnil
  | cons s rest ih =>
    rw [List.map_cons]
    cases hcontent : t.content? s with
    | none =>
      rw [List.filterMap_cons_none (by rw [hcontent, Option.map_none])]
      exact ih.cons _
    | some v =>
      rw [List.filterMap_cons_some (by rw [hcontent, Option.map_some])]
      exact ih.cons_cons _

/-- What was written is read back. -/
theorem ofDocument_toDocument {d : Value} (h : ofDocument d = .ok t) :
    ofDocument t.toDocument = .ok t := by
  obtain ⟨hcontent, hread⟩ := content?_of_ofDocument h
  refine ofEntries_eq_ok_iff.mpr ⟨fun s => ?_, hread⟩
  rw [freeSection, get?_toEntries]
  cases hsome : t.content? s with
  | none => rfl
  | some v =>
    exact (Value.nonNull?_eq_some_iff.mpr ⟨rfl, ((hcontent s v).mp hsome).1⟩).symm

/-- **Reading and writing undo each other.**  A document is refused just if there is a fault in it,
and then for a fault that lies in it.  Any other document is read.  What is written for its template
are the entries of the document that are called like a section and are not null, each as it stands
there, in the conventional order of the sections; and this is read as the same template again. -/
theorem ofDocument_reads_back (d : Value) :
    ((∃ fault, ofDocument d = .error fault) ↔ ∃ fault, HasFault d fault) ∧
    (∀ fault, ofDocument d = .error fault → HasFault d fault) ∧
    ∀ t, ofDocument d = .ok t →
      (∀ name v, (name, v) ∈ t.toEntries ↔ (∃ s : Section, s.name = name) ∧ v ≠ .null ∧
        ∃ document : Fields Value, d = .map document ∧ document.get? name = some v) ∧
      t.toEntries.names.Sublist (Section.all.map Section.name) ∧
      ofDocument t.toDocument = .ok t := by
  refine ⟨⟨fun ⟨fault, h⟩ => ⟨fault, hasFault_of_ofDocument h⟩, ?refused⟩,
    fun fault => hasFault_of_ofDocument, fun t h => ⟨fun name v => ?entries,
      names_toEntries_sublist t, ofDocument_toDocument h⟩⟩
  case refused =>
    rintro ⟨fault, hfault⟩
    cases h : ofDocument d with
    | error found => exact ⟨found, rfl⟩
    | ok t => exact absurd hfault (not_hasFault_of_ofDocument h)
  case entries =>
    rw [mem_toEntries_iff]
    simp only [(content?_of_ofDocument h).1]
    constructor
    · rintro ⟨s, rfl, hv⟩
      exact ⟨⟨s, rfl⟩, hv⟩
    · rintro ⟨⟨s, rfl⟩, hv⟩
      exact ⟨s, rfl, hv⟩

/-- The entry that is no section and the one that is null are not written, and the others move to
their places; the attributes of a parameter stay, known or not.  A type that is null is a fault. -/
theorem ofDocument_reads_back_of_unordered_sections :
    let kept : Fields Value := [("Resources", .map []),
      ("Parameters", .map [("Stage", .map [("Kind", .null), ("Type", .string "String")])])]
    let dropped : Fields Value := [("Comment", .int 1), ("Outputs", .null)]
    let d : Value := .map (kept ++ dropped)
    let faulty : Value := .map [("Parameters", .map [("Stage", .map [("Type", .null)])])]
    (∃ t, ofDocument d = .ok t ∧ (∀ entry ∈ kept, entry ∈ t.toEntries) ∧
      (∀ entry ∈ dropped, entry ∉ t.toEntries) ∧
      t.toEntries.names.Sublist (Section.all.map Section.name) ∧
      ofDocument t.toDocument = .ok t) ∧
    ofDocument faulty = .error (.parameterType "Stage" .null) ∧
      HasFault faulty (.parameterType "Stage" .null) := by
  intro kept dropped d faulty
  obtain ⟨t, ht⟩ : ∃ t, ofDocument d = .ok t := ⟨_, rfl⟩
  obtain ⟨hentries, hordered, hread⟩ := (ofDocument_reads_back d).2.2 t ht
  have hkept : ∀ entry ∈ kept, entry ∈ t.toEntries := by
    refine List.forall_mem_cons.mpr ⟨?resources, List.forall_mem_singleton.mpr ?parameters⟩
    case resources => exact (hentries _ _).mpr ⟨⟨.resources, rfl⟩, by decide, _, rfl, by decide⟩
    case parameters => exact (hentries _ _).mpr ⟨⟨.parameters, rfl⟩, by decide, _, rfl, by decide⟩
  have hdropped : ∀ entry ∈ dropped, entry ∉ t.toEntries := by
    refine List.forall_mem_cons.mpr ⟨?comment, List.forall_mem_singleton.mpr ?outputs⟩
    case comment =>
      intro hmem
      obtain ⟨s, hs⟩ := ((hentries _ _).mp hmem).1
      revert hs
      cases s <;> decide
    case outputs => exact fun hmem => ((hentries _ _).mp hmem).2.1 rfl
  have hfaulty : ofDocument faulty = .error (.parameterType "Stage" .null) := rfl
  exact ⟨⟨t, ht, hkept, hdropped, hordered, hread⟩, hfaulty,
    (ofDocument_reads_back faulty).2.1 _ hfaulty⟩

end Template

end CloudTemplate
