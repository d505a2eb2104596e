import Mathlib.Data.List.Forall2
import Mathlib.Data.List.Sort
import CloudTemplate.Cloud.ParameterStore

/-!
# What is asked of the parameter store, and what it tells

The names that a template has in the parameter store are asked for in batches.  The store answers a
request with the values of those names that it holds; the other names of the request it declares
invalid, or it says nothing about them (`Cloud.AnswersFrom`).

What several requests have told about the names that were asked for so far is kept together
(`Cloud.Tells`): every value that was found is the one in the store, no name is lost, and the names
that were declared invalid are missing.  One more answer keeps this as long as no name is asked for
again (`Cloud.Tells.append`), so it is true of all batches (`Cloud.fetchBatches_tells`).  The names
that are neither found nor declared invalid are then the rest of the missing ones.

## Main results

* `Cloud.fetchParameters_asks_once`: every name is asked for once, in batches of ten and a last one
  of at most ten; either all values are had, or exactly the missing names are reported.
-/

namespace CloudTemplate

/-! ### Texts that are split -/

/-- The parts are a text cut at every separator. -/
structure Text.IsSplit (separator : CodePoint) (t : Text) (parts : List Text) : Prop where
  ne_nil : parts ≠ []
  joined : [separator].intercalate parts = t
  notMem : ∀ part ∈ parts, separator ∉ part

theorem Text.isSplit_splitOn (separator : CodePoint) (t : Text) :
    Text.IsSplit separator t (t.splitOn separator) where
  ne_nil := List.splitOn_ne_nil separator t
  joined := List.intercalate_splitOn separator
  notMem := by
    induction t with
    | nil => simp
    | cons c rest ih =>
      rw [List.splitOn_cons_eq_if_modifyHead]
      split
      · exact List.forall_mem_cons.mpr ⟨List.not_mem_nil, ih⟩
      · next hc =>
        have hne : separator ≠ c := fun heq => hc (beq_iff_eq.mpr heq.symm)
        cases hparts : rest.splitOn separator with
        | nil => exact List.forall_mem_nil _
        | cons part others =>
          rw [hparts] at ih
          obtain ⟨hpart, hothers⟩ := List.forall_mem_cons.mp ih
          exact List.forall_mem_cons.mpr
            ⟨List.not_mem_cons_of_ne_of_not_mem hne hpart, hothers⟩

namespace Cloud

/-! ### Batches -/

theorem flatten_batches (names : List Text) : (batches names).flatten = names := by
  induction names using batches.induct with
  | case1 => rw [batches, List.flatten_nil]
  | case2 name rest ih =>
    rw [batches, List.flatten_cons, ih, List.cons_append, List.take_append_drop]

/-- The store takes every batch. -/
theorem forall_mem_batches (names : List Text) :
    ∀ batch ∈ batches names, batch ≠ [] ∧ batch.length ≤ batchSize := by
  induction names using batches.induct with
  | case1 =>
    rw [batches]
    exact List.forall_mem_nil _
  | case2 name rest ih =>
    rw [batches]
    refine List.forall_mem_cons.mpr ⟨⟨List.cons_ne_nil _ _, ?_⟩, ih⟩
    rw [List.length_cons, List.length_take, batchSize]
    omega

/-- Every batch but the last is full. -/
theorem length_of_mem_dropLast_batches (names : List Text) :
    ∀ batch ∈ (batches names).dropLast, batch.length = batchSize := by
  induction names using batches.induct with
  | case1 =>
    rw [batches]
    exact List.forall_mem_nil _
  | case2 name rest ih =>
    rw [batches]
    cases hrest : batches (rest.drop (batchSize - 1)) with
    | nil => exact List.forall_mem_nil _
    | cons next others =>
      rw [hrest] at ih
      rw [List.dropLast_cons_of_ne_nil (List.cons_ne_nil next others)]
      refine List.forall_mem_cons.mpr ⟨?_, ih⟩
      have hne : rest.drop (batchSize - 1) ≠ [] := by
        intro hnil
        rw [hnil, batches] at hrest
        cases hrest
      have hlong : batchSize - 1 < rest.length := by
        by_contra hshort
        exact hne (List.drop_eq_nil_of_le (Nat.le_of_not_lt hshort))
      rw [List.length_cons, List.length_take, Nat.min_eq_left (Nat.le_of_lt hlong), batchSize]

/-! ### Answers of a store -/

/-- The answer to a request for some names, when the store holds what it does: `none` for a name
that is not there, and `some none` for one without a value.  All names are found that are there, and
some of the others are declared invalid, each of them once. -/
structure IsAnswer (store : Text → Option (Option Text)) (names : List Text)
    (answer : StoredParameters) : Prop where
  found_iff (name : Text) (v : Option Text) :
    (name, v) ∈ answer.found ↔ name ∈ names ∧ store name = some v
  invalid_nodup : answer.invalid.Nodup
  invalid_missing : ∀ name ∈ answer.invalid, name ∈ names ∧ store name = none

/-- The cloud answers from a store whenever it is asked for some distinct names, not too many at
once. -/
def AnswersFrom (cloud : Cloud) (store : Text → Option (Option Text)) : Prop :=
  ∀ names : List Text, names ≠ [] → names.length ≤ batchSize → names.Nodup →
    ∃ answer, cloud.parameters names = .ok answer ∧ IsAnswer store names answer

/-- An account that is given as data answers from its store, if it declares no names invalid that it
was not asked for, and says nothing only about names that it does not have. -/
theorem answersFrom_ofAccount {account : Account} (hrefusal : account.storeRefusal = none)
    (hinvalid : account.alwaysInvalid = [])
    (homitted : ∀ name ∈ account.omitted, account.store.get? name = none) :
    AnswersFrom (ofAccount account) account.store.get? := by
  intro names _ _ hnodup
  refine ⟨account.lookUp names, by rw [ofAccount, hrefusal], fun name v => ?_, ?_, fun name h => ?_⟩
  · rw [Account.lookUp, List.mem_filterMap]
    constructor
    · rintro ⟨asked, hasked, h⟩
      split at h
      · cases h
      · obtain ⟨found, hfound, heq⟩ := Option.map_eq_some_iff.mp h
        obtain ⟨rfl, rfl⟩ := Prod.mk.inj heq
        exact ⟨hasked, hfound⟩
    · rintro ⟨hname, hv⟩
      refine ⟨name, hname, ?_⟩
      have hknown : ¬ account.omitted.contains name = true := fun h => by
        rw [homitted name (List.contains_iff_mem.mp h)] at hv
        cases hv
      rw [if_neg hknown, hv, Option.map_some]
  · rw [Account.lookUp, hinvalid, List.append_nil]
    exact hnodup.filter _
  · rw [Account.lookUp, hinvalid, List.append_nil] at h
    obtain ⟨hname, h⟩ := List.mem_filter.mp h
    rw [Bool.and_eq_true_iff, Bool.not_eq_true', Fields.has, Option.isSome_eq_false_iff,
      Option.isNone_iff_eq_none] at h
    exact ⟨hname, h.1⟩

/-! ### What has been told -/

variable {cloud : Cloud} {store : Text → Option (Option Text)}

/-- What the answers so far tell about the names that were asked for. -/
structure Tells (store : Text → Option (Option Text)) (asked : List Text) (found : Fields Text)
    (invalid : List Text) : Prop where
  sound : ∀ entry ∈ found, entry.1 ∈ asked ∧ ∃ v, store entry.1 = some v ∧ entry.2 = v.getD ""
  complete : ∀ name ∈ asked, ∀ v, store name = some v → name ∈ found.names
  missing : ∀ name ∈ invalid, name ∈ asked ∧ store name = none
  nodup : invalid.Nodup

theorem tells_nil : Tells store [] [] [] where
  sound := List.forall_mem_nil _
  complete := List.forall_mem_nil _
  missing := List.forall_mem_nil _
  nodup := .nil

theorem IsAnswer.tells {names : List Text} {answer : StoredParameters}
    (h : IsAnswer store names answer) :
    Tells store names (Fields.ofList (answer.found.map fun (name, v) => (name, v.getD "")))
      answer.invalid where
  sound entry hentry := by
    rcases Fields.mem_update hentry with hnone | hentry
    · cases hnone
    · obtain ⟨⟨name, v⟩, hmem, rfl⟩ := List.mem_map.mp hentry
      obtain ⟨hname, hv⟩ := (h.found_iff name v).mp hmem
      exact ⟨hname, v, hv, rfl⟩
  complete name hname v hv := by
    have hmem : (name, v.getD "") ∈ answer.found.map fun (name, v) => (name, v.getD "") :=
      List.mem_map_of_mem ((h.found_iff name v).mpr ⟨hname, hv⟩)
    exact Fields.mem_names_update.mpr (.inr (List.mem_map_of_mem hmem))
  missing := h.invalid_missing
  nodup := h.invalid_nodup

/-- Two parts tell together what each of them does, if no name is asked for in both. -/
theorem Tells.append {asked asked' : List Text} {found found' : Fields Text}
    {invalid invalid' : List Text} (h : Tells store asked found invalid)
    (h' : Tells store asked' found' invalid') (hdisjoint : asked.Disjoint asked') :
    Tells store (asked ++ asked') (found.update found') (invalid ++ invalid') where
  sound entry hentry := by
    rcases Fields.mem_update hentry with hentry | hentry
    · exact (h.sound entry hentry).imp_left (List.mem_append_left _)
    · exact (h'.sound entry hentry).imp_left (List.mem_append_right _)
  complete name hname v hv := by
    rw [Fields.mem_names_update]
    exact (List.mem_append.mp hname).imp (h.complete name · v hv) (h'.complete name · v hv)
  missing name hname := by
    rcases List.mem_append.mp hname with hname | hname
    · exact (h.missing name hname).imp_left (List.mem_append_left _)
    · exact (h'.missing name hname).imp_left (List.mem_append_right _)
  nodup := List.nodup_append'.mpr ⟨h.nodup, h'.nodup, fun name hname hname' =>
    hdisjoint (h.missing name hname).1 (h'.missing name hname').1⟩

/-- The value that was found for a name is the one in the store. -/
theorem Tells.get?_eq {asked : List Text} {found : Fields Text} {invalid : List Text}
    (h : Tells store asked found invalid) {name : Text} (hname : name ∈ asked) :
    found.get? name = (store name).map (·.getD "") := by
  cases hstore : store name with
  | none =>
    cases hget : found.get? name with
    | none => rfl
    | some a =>
      obtain ⟨-, v, hv, -⟩ := h.sound _ (Fields.mem_of_get? hget)
      rw [hstore] at hv
      cases hv
  | some v =>
    obtain ⟨a, hget⟩ := Fields.exists_get?_of_mem_names (h.complete name hname v hstore)
    obtain ⟨-, w, hw, ha⟩ := h.sound _ (Fields.mem_of_get? hget)
    rw [hstore] at hw
    obtain rfl := Option.some.inj hw
    rw [hget, Option.map_some, show a = v.getD "" from ha]

/-- **All batches are asked for, one after the other.**  The induction is on the batches; what has
been told of the first and of the others is put together. -/
theorem fetchBatches_tells (hcloud : cloud.AnswersFrom store) {asked : List (List Text)}
    (hallowed : ∀ batch ∈ asked, batch ≠ [] ∧ batch.length ≤ batchSize)
    (hnodup : asked.flatten.Nodup) :
    ∃ found invalid,
      cloud.fetchBatches asked = ⟨asked.map (.parameters · false), .ok (found, invalid)⟩ ∧
        Tells store asked.flatten found invalid := by
  induction asked with
  | nil => exact ⟨[], [], rfl, tells_nil⟩
  | cons batch rest ih =>
    obtain ⟨⟨hne, hlength⟩, hothers⟩ := List.forall_mem_cons.mp hallowed
    obtain ⟨hbatch, hrest, hdisjoint⟩ := List.nodup_append'.mp hnodup
    obtain ⟨answer, hanswer, hfirst⟩ := hcloud batch hne hlength hbatch
    obtain ⟨found, invalid, hfetch, htells⟩ := ih hothers hrest
    refine ⟨_, _, ?_, hfirst.tells.append htells hdisjoint⟩
    have hgiven : (Recorded.ofExcept (.ok answer)).mapError StoreError.refused =
        (⟨[], .ok answer⟩ : Dialogue StoreError StoredParameters) := rfl
    rw [fetchBatches, hanswer, hfetch, Recorded.note_bind, hgiven, Recorded.mk_ok_bind,
      Recorded.mk_ok_bind]
    simp only [Recorded.notes_pure, Recorded.result_pure, List.append_nil, List.nil_append,
      List.map_cons]

/-! ### Names that are missing -/

/-- The names that were declared invalid, and those of which nothing was heard. -/
def missingNames (asked : List Text) (found : Fields Text) (invalid : List Text) : List Text :=
  invalid ++ asked.filter fun name => !found.has name && !invalid.contains name

variable {asked : List Text} {found : Fields Text} {invalid : List Text}

theorem Tells.has_eq_false_iff (h : Tells store asked found invalid) {name : Text}
    (hname : name ∈ asked) : found.has name = false ↔ store name = none := by
  rw [Fields.has, h.get?_eq hname, Option.isSome_map, Option.isSome_eq_false_iff,
    Option.isNone_iff_eq_none]

/-- A name is reported if it was asked for and is not in the store. -/
theorem Tells.mem_missingNames (h : Tells store asked found invalid) {name : Text} :
    name ∈ missingNames asked found invalid ↔ name ∈ asked ∧ store name = none := by
  rw [missingNames, List.mem_append, List.mem_filter, Bool.and_eq_true_iff, Bool.not_eq_true',
    Bool.not_eq_true', List.contains_eq_mem, decide_eq_false_iff_not]
  constructor
  · rintro (hinvalid | ⟨hname, hfound, -⟩)
    · exact h.missing name hinvalid
    · exact ⟨hname, (h.has_eq_false_iff hname).mp hfound⟩
  · rintro ⟨hname, hstore⟩
    by_cases hinvalid : name ∈ invalid
    · exact .inl hinvalid
    · exact .inr ⟨hname, (h.has_eq_false_iff hname).mpr hstore, hinvalid⟩

theorem Tells.nodup_missingNames (h : Tells store asked found invalid) (hasked : asked.Nodup) :
    (missingNames asked found invalid).Nodup := by
  refine List.nodup_append'.mpr ⟨h.nodup, hasked.filter _, fun name hinvalid hsilent => ?_⟩
  have hnot := (Bool.and_eq_true_iff.mp (List.mem_filter.mp hsilent).2).2
  rw [List.contains_iff_mem.mpr hinvalid] at hnot
  cases hnot

/-! ### Parameters with a name in the store -/

variable {t : Template} {overrides : Fields Value}

theorem storedName?_eq_none_iff {name : Text} {p : Parameter} :
    storedName? overrides name p = none ↔ overrides.get? name = none ∧ p.seed? = none := by
  rw [storedName?, Option.map_eq_none_iff, Option.or_eq_none_iff]

theorem storedNames_eq_nil_iff :
    storedNames t overrides = [] ↔ ∀ entry ∈ t.parameters.getD [], entry.2.isStored = true →
      overrides.get? entry.1 = none ∧ entry.2.seed? = none := by
  rw [storedNames, List.filterMap_eq_nil_iff]
  refine forall₂_congr fun ⟨name, p⟩ _ => ?_
  dsimp only
  by_cases hstored : p.isStored = true
  · rw [if_pos hstored, Option.map_eq_none_iff, storedName?_eq_none_iff,
      forall_prop_of_true hstored]
  · rw [if_neg hstored]
    exact iff_of_true rfl fun h => absurd h hstored

theorem exists_parameter_of_mem_storedNames {entry : Text × Text}
    (h : entry ∈ storedNames t overrides) :
    ∃ p, Fields.get? (t.parameters.getD []) entry.1 = some p := by
  obtain ⟨⟨name, p⟩, hmem, h⟩ := List.mem_filterMap.mp h
  dsimp only at h
  split at h
  · obtain ⟨stored, -, rfl⟩ := Option.map_eq_some_iff.mp h
    exact Fields.exists_get?_of_mem_names (List.mem_map_of_mem hmem)
  · cases h

/-- The value of a parameter whose text in the store is given: the parts of the text where the type
has a list in it, and the text itself elsewhere. -/
structure IsStoredValue (p : Parameter) (stored : Text) (value : Value) : Prop where
  ofList : ("List<" : Text) <:+: p.type →
    ∃ parts, Text.IsSplit (.char ',') stored parts ∧ value = .ofStrings parts
  ofText : ¬ ("List<" : Text) <:+: p.type → value = .string stored

theorem isStoredValue_storedValue (p : Parameter) (stored : Text) :
    IsStoredValue p stored (storedValue p stored) where
  ofList h := by
    rw [storedValue, Parameter.isListed, if_pos (Text.occursIn_iff.mpr h)]
    exact ⟨_, Text.isSplit_splitOn _ stored, rfl⟩
  ofText h := by
    rw [storedValue, Parameter.isListed, if_neg (mt Text.occursIn_iff.mp h)]

/-- If every entry gives something, there is one result for each entry. -/
theorem forall₂_filterMap {α β : Type} {R : α → β → Prop} {f : α → Option β} {l : List α}
    (h : ∀ a ∈ l, ∃ b, f a = some b ∧ R a b) : List.Forall₂ R l (l.filterMap f) := by
  induction l with
  | nil => exact .nil
  | cons a rest ih =>
    obtain ⟨⟨b, hb, hab⟩, hrest⟩ := List.forall_mem_cons.mp h
    rw [List.filterMap_cons_some hb]
    exact .cons hab (ih hrest)

/-- The values that are put together from what was found, one for each parameter. -/
def valuesFound (t : Template) (names : Fields Text) (found : Fields Text) : Fields Value :=
  names.filterMap fun (name, stored) => do
    let p ← (t.parameters.getD []).get? name
    return (name, storedValue p ((found.get? stored).getD ""))

/-- The names that the store is asked for. -/
def wantedNames (t : Template) (overrides : Fields Value) : SortedSet Text :=
  .ofList (storedNames t overrides).values

theorem fetchParameters_of_ne_nil {notes : List CloudCall} (hne : storedNames t overrides ≠ [])
    (hfetch : cloud.fetchBatches (batches (wantedNames t overrides).toList) =
      ⟨notes, .ok (found, invalid)⟩) (profile region : Option Text) :
    cloud.fetchParameters t overrides profile region =
      ⟨.session profile region :: .client "ssm" none :: notes,
        if (missingNames (wantedNames t overrides).toList found invalid).isEmpty then
          .ok (valuesFound t (storedNames t overrides) found)
        else .error (.missing ((missingNames (wantedNames t overrides).toList found
          invalid).mergeSort fun a b => a ≤ b))⟩ := by
  have hempty : ¬ (storedNames t overrides).isEmpty = true := fun h => hne (List.isEmpty_iff.mp h)
  rw [wantedNames] at hfetch ⊢
  rw [fetchParameters]
  dsimp only
  rw [if_neg hempty, hfetch, Recorded.note_bind, Recorded.note_bind, Recorded.mk_ok_bind]
  dsimp only
  rw [← missingNames]
  split
  · rw [Recorded.notes_pure, Recorded.result_pure, List.append_nil]
    rfl
  · rw [Recorded.notes_ofExcept, Recorded.result_ofExcept, List.append_nil]

theorem mem_wantedNames {name : Text} :
    name ∈ (wantedNames t overrides).toList ↔ name ∈ (storedNames t overrides).values :=
  SortedSet.mem_ofList

theorem nodup_wantedNames : (wantedNames t overrides).toList.Nodup :=
  (wantedNames t overrides).increasing.imp Std.ne_of_lt

/-- The batches that are asked for hold the names of the parameters. -/
theorem fetchBatches_wantedNames (hcloud : cloud.AnswersFrom store) (t : Template)
    (overrides : Fields Value) :
    ∃ found invalid,
      cloud.fetchBatches (batches (wantedNames t overrides).toList) =
        ⟨(batches (wantedNames t overrides).toList).map (.parameters · false),
          .ok (found, invalid)⟩ ∧
      Tells store (wantedNames t overrides).toList found invalid := by
  have hflatten := flatten_batches (wantedNames t overrides).toList
  obtain ⟨found, invalid, hfetch, htells⟩ :=
    fetchBatches_tells hcloud (forall_mem_batches _) (hflatten.symm ▸ nodup_wantedNames)
  exact ⟨found, invalid, hfetch, hflatten ▸ htells⟩

theorem fetchParameters_of_nil (h : storedNames t overrides = []) (profile region : Option Text) :
    cloud.fetchParameters t overrides profile region = ⟨[], .ok []⟩ :=
  if_pos (List.isEmpty_iff.mpr h)

/-- The value of a parameter, when its name in the store is given with it. -/
def HasStoredValue (store : Text → Option (Option Text)) (t : Template) (entry : Text × Text)
    (value : Text × Value) : Prop :=
  value.1 = entry.1 ∧ ∃ p v, Fields.get? (t.parameters.getD []) entry.1 = some p ∧
    store entry.2 = some v ∧ IsStoredValue p (v.getD "") value.2

/-- A value for each parameter with a name in the store, if the store holds all of them. -/
theorem forall₂_valuesFound (h : Tells store (wantedNames t overrides).toList found invalid)
    (hall : ∀ name ∈ (storedNames t overrides).values, store name ≠ none) :
    List.Forall₂ (HasStoredValue store t) (storedNames t overrides)
      (valuesFound t (storedNames t overrides) found) := by
  refine forall₂_filterMap fun entry hentry => ?_
  obtain ⟨p, hp⟩ := exists_parameter_of_mem_storedNames hentry
  have hname : entry.2 ∈ (storedNames t overrides).values := List.mem_map_of_mem hentry
  obtain ⟨v, hv⟩ := Option.ne_none_iff_exists'.mp (hall entry.2 hname)
  refine ⟨(entry.1, storedValue p (v.getD "")), ?_, rfl, p, v, hp, hv,
    isStoredValue_storedValue p _⟩
  dsimp only
  rw [hp, h.get?_eq (mem_wantedNames.mpr hname), hv]
  rfl

/-- The store holds all names and there are values for them, or the missing ones are reported. -/
theorem result_fetchParameters_cases (hcloud : cloud.AnswersFrom store) (t : Template)
    (overrides : Fields Value) (profile region : Option Text) :
    ((∀ name ∈ (storedNames t overrides).values, store name ≠ none) ∧ ∃ values,
      (cloud.fetchParameters t overrides profile region).result = .ok values ∧
        List.Forall₂ (HasStoredValue store t) (storedNames t overrides) values) ∨
    ((¬ ∀ name ∈ (storedNames t overrides).values, store name ≠ none) ∧ ∃ missing,
      (cloud.fetchParameters t overrides profile region).result = .error (.missing missing) ∧
        missing.Pairwise (· < ·) ∧
        ∀ name, name ∈ missing ↔ name ∈ (storedNames t overrides).values ∧ store name = none) := by
  by_cases hnames : storedNames t overrides = []
  · rw [fetchParameters_of_nil hnames, hnames]
    exact .inl ⟨List.forall_mem_nil _, [], rfl, .nil⟩
  obtain ⟨found, invalid, hfetch, htells⟩ := fetchBatches_wantedNames hcloud t overrides
  rw [fetchParameters_of_ne_nil hnames hfetch]
  have hmissing : ∀ name, name ∈ missingNames (wantedNames t overrides).toList found invalid ↔
      name ∈ (storedNames t overrides).values ∧ store name = none := fun name => by
    rw [htells.mem_missingNames, mem_wantedNames]
  by_cases hempty : missingNames (wantedNames t overrides).toList found invalid = []
  · have hall : ∀ name ∈ (storedNames t overrides).values, store name ≠ none := by
      intro name hname hstore
      exact List.not_mem_nil (hempty ▸ (hmissing name).mpr ⟨hname, hstore⟩)
    rw [if_pos (List.isEmpty_iff.mpr hempty)]
    exact .inl ⟨hall, _, rfl, forall₂_valuesFound htells hall⟩
  · rw [if_neg (mt List.isEmpty_iff.mp hempty)]
    refine .inr ⟨fun hall => ?_, _, rfl,
      Text.increasing_mergeSort (htells.nodup_missingNames nodup_wantedNames), fun name => ?_⟩
    · obtain ⟨name, hname⟩ := List.exists_mem_of_ne_nil _ hempty
      exact hall name ((hmissing name).mp hname).1 ((hmissing name).mp hname).2
    · rw [List.mem_mergeSort, hmissing]

/-- **Every name is asked for once, and exactly the missing ones are reported.**  Let a cloud answer
from a store.  If no parameter with a name in the store has an override or a default that is not
null, the cloud is not called at all.  Otherwise the names that are asked for, one batch after the
other, are the different names of the parameters in increasing order; every batch has ten of them,
but for the last one, which has one at least and ten at most.

The values are had if and only if the store holds every name.  Then they are those of the parameters
with a name in the store, in their order: what the store holds under the name, nothing if it has no
value there, cut at every comma if there is a list in the type of the parameter.  What is reported
otherwise are the missing names in increasing order. -/
theorem fetchParameters_asks_once (hcloud : cloud.AnswersFrom store) (t : Template)
    (overrides : Fields Value) (profile region : Option Text) :
    let names := storedNames t overrides
    let fetch := cloud.fetchParameters t overrides profile region
    (names = [] ↔ ∀ entry ∈ t.parameters.getD [], entry.2.isStored = true →
      overrides.get? entry.1 = none ∧ entry.2.seed? = none) ∧
    (names = [] → fetch.notes = []) ∧
    (names ≠ [] → ∃ asked : List (List Text),
      fetch.notes =
        .session profile region :: .client "ssm" none :: asked.map (.parameters · false) ∧
      asked.flatten.Pairwise (· < ·) ∧ (∀ name, name ∈ asked.flatten ↔ name ∈ names.values) ∧
      (∀ batch ∈ asked.dropLast, batch.length = 10) ∧
      ∃ last, asked.getLast? = some last ∧ 1 ≤ last.length ∧ last.length ≤ 10) ∧
    ((∃ values, fetch.result = .ok values) ↔ ∀ name ∈ names.values, store name ≠ none) ∧
    (∀ values, fetch.result = .ok values →
      List.Forall₂ (HasStoredValue store t) names values) ∧
    ∀ e, fetch.result = .error e → ∃ missing, e = .missing missing ∧ missing.Pairwise (· < ·) ∧
      ∀ name, name ∈ missing ↔ name ∈ names.values ∧ store name = none := by
  intro names fetch
  have hcases := result_fetchParameters_cases hcloud t overrides profile region
  refine ⟨storedNames_eq_nil_iff, fun hnil => ?_, fun hne => ?_, ?_, fun values hvalues => ?_,
    fun e he => ?_⟩
  · exact congrArg Recorded.notes (fetchParameters_of_nil hnil profile region)
  · obtain ⟨found, invalid, hfetch, -⟩ := fetchBatches_wantedNames hcloud t overrides
    have hflatten := flatten_batches (wantedNames t overrides).toList
    refine ⟨batches (wantedNames t overrides).toList,
      congrArg Recorded.notes (fetchParameters_of_ne_nil hne hfetch profile region),
      hflatten.symm ▸ (wantedNames t overrides).increasing,
      fun name => hflatten.symm ▸ mem_wantedNames, length_of_mem_dropLast_batches _, ?_⟩
    have hbatches : batches (wantedNames t overrides).toList ≠ [] := fun hnil => hne <| by
      rw [hnil] at hflatten
      exact List.map_eq_nil_iff.mp (List.eq_nil_iff_forall_not_mem.mpr fun name hname =>
        List.not_mem_nil (hflatten.symm ▸ mem_wantedNames.mpr hname))
    have hlast := forall_mem_batches _ _ (List.getLast_mem hbatches)
    exact ⟨_, List.getLast?_eq_some_getLast hbatches, List.length_pos_iff.mpr hlast.1, hlast.2⟩
  · rcases hcases with ⟨hall, values, hvalues, -⟩ | ⟨hnot, missing, hmissing, -⟩
    · exact iff_of_true ⟨values, hvalues⟩ hall
    · refine iff_of_false (fun ⟨values, hvalues⟩ => ?_) hnot
      cases hvalues.symm.trans hmissing
  · rcases hcases with ⟨-, found, hfound, hthere⟩ | ⟨-, missing, hmissing, -⟩
    · exact Except.ok.inj (hvalues.symm.trans hfound) ▸ hthere
    · cases hvalues.symm.trans hmissing
  · rcases hcases with ⟨-, values, hvalues, -⟩ | ⟨-, missing, hmissing, hthere⟩
    · cases he.symm.trans hvalues
    · exact ⟨missing, Except.error.inj (he.symm.trans hmissing), hthere⟩

/-- Twelve names need two batches.  Two parameters share a name, which one of them has from an
override.  Of the names that the store lacks, it declares one invalid and says nothing about the
other. -/
theorem fetchParameters_asks_once_of_two_batches :
    let letters : List Text := ["a", "b", "c", "d", "e", "f", "g", "h", "i", "j", "k", "l"]
    let parameter (name type seed : Text) : Text × Parameter :=
      (name, ⟨name, type, [("Default", .string seed)]⟩)
    let parameters : Fields Parameter :=
      parameter "List" "AWS::SSM::Parameter::Value<List<String>>" "/z" ::
        letters.map fun name => parameter name "AWS::SSM::Parameter::Value<String>" ("/" ++ name)
    let t : Template := { parameters := some parameters }
    let overrides : Fields Value := [("List", .string "/a")]
    let lacking : List Text := ["/c", "/k"]
    let known : List Text := ["/a", "/b", "/d", "/e", "/f", "/g", "/h", "/i", "/j", "/l"]
    let store : Fields (Option Text) := known.map fun name => (name, some "1,2")
    let account : Account := { store := store, omitted := ["/k"] }
    let cloud := ofAccount account
    cloud.AnswersFrom account.store.get? ∧
      (∃ asked : List (List Text), (cloud.fetchParameters t overrides none none).notes =
          .session none none :: .client "ssm" none :: asked.map (.parameters · false) ∧
        asked.flatten.Pairwise (· < ·)) ∧
      (cloud.fetchParameters t overrides none none).result = .error (.missing lacking) := by
  intro letters parameter parameters t overrides lacking known store account cloud
  have hcloud : cloud.AnswersFrom account.store.get? :=
    answersFrom_ofAccount rfl rfl (by decide +kernel)
  obtain ⟨-, -, hasked, hok, -, herror⟩ := fetchParameters_asks_once hcloud t overrides none none
  have hnames : storedNames t overrides ≠ [] := by decide +kernel
  have hlacks : ¬ ∀ name ∈ (storedNames t overrides).values, account.store.get? name ≠ none := by
    decide +kernel
  obtain ⟨asked, hnotes, hincreasing, -⟩ := hasked hnames
  refine ⟨hcloud, ⟨asked, hnotes, hincreasing⟩, ?_⟩
  cases hresult : (cloud.fetchParameters t overrides none none).result with
  | ok values => exact absurd (hok.mp ⟨values, hresult⟩) hlacks
  | error e =>
    obtain ⟨missing, rfl, hsorted, hmem⟩ := herror e hresult
    have hto : ∀ name ∈ (storedNames t overrides).values, account.store.get? name = none →
        name ∈ lacking := by decide +kernel
    have hfrom : ∀ name ∈ lacking,
        name ∈ (storedNames t overrides).values ∧ account.store.get? name = none := by
      decide +kernel
    have hmissing : missing = lacking :=
      hsorted.eq_of_mem_iff (by decide +kernel) fun name =>
        (hmem name).trans ⟨fun h => hto name h.1 h.2, hfrom name⟩
    rw [hmissing]

end Cloud

end CloudTemplate
