import Mathlib.Data.List.Forall2
import CloudTemplate.Command.Settings
import CloudTemplate.Recorded

/-!
# Conditions on a command line

The outcomes of conditions are given as pairs `NAME=VALUE` (`Command.IsPair`) whose values are truth
values in capital or small letters (`Command.IsTruth`).  The pairs are put into a table one after
the other, and only then are the values looked at that are still in it.  So every item has to be a
pair, but of the values of a name the last one alone is checked (`Command.IsLastValue`); one that a
later pair overwrites may be anything.

## Main results

* `Command.conditions_accepts_iff`: which items are accepted, and the table that they make up.
* `Command.fault_of_conditions`: items that are not accepted are refused for a fault that is there.
* `Command.Settings.conditions_of_ofArguments`: the conditions in the settings of a command are the
  table of all values that its arguments give for them.
-/

namespace CloudTemplate

/-! ### Capital and small letters -/

namespace Text

/-- Capital letters stand 32 places before the small ones. -/
theorem toNat_toLower (c : Char) :
    c.toLower.toNat = if 65 ≤ c.toNat ∧ c.toNat ≤ 90 then c.toNat + 32 else c.toNat := by
  by_cases h : 65 ≤ c.toNat ∧ c.toNat ≤ 90
  · obtain ⟨_, hlower⟩ : ∃ hvalid, c.toLower = ⟨c.val + ('a'.val - 'A'.val), hvalid⟩ :=
      ⟨_, dif_pos h⟩
    have hsum : (c.val + ('a'.val - 'A'.val)).toNat = (c.toNat + 32) % 2 ^ 32 :=
      UInt32.toNat_add c.val ('a'.val - 'A'.val)
    rw [if_pos h, hlower, ← Char.toNat_val, hsum]
    omega
  · have hsame : c.toLower = c := dif_neg h
    rw [if_neg h, hsame]

theorem toNat_toUpper (c : Char) :
    c.toUpper.toNat = if 97 ≤ c.toNat ∧ c.toNat ≤ 122 then c.toNat - 32 else c.toNat := by
  by_cases h : 97 ≤ c.toNat ∧ c.toNat ≤ 122
  · obtain ⟨_, hupper⟩ : ∃ hvalid, c.toUpper = ⟨c.val + ('A'.val - 'a'.val), hvalid⟩ :=
      ⟨_, dif_pos h⟩
    have hsum : (c.val + ('A'.val - 'a'.val)).toNat = (c.toNat + (2 ^ 32 - 32)) % 2 ^ 32 :=
      UInt32.toNat_add c.val ('A'.val - 'a'.val)
    rw [if_pos h, hupper, ← Char.toNat_val, hsum]
    omega
  · have hsame : c.toUpper = c := dif_neg h
    rw [if_neg h, hsame]

/-- In lower case a character is a small letter if it is that letter or its capital. -/
theorem toLower_eq_iff {c letter : Char} (h : letter.isLower = true) :
    c.toLower = letter ↔ c = letter ∨ c = letter.toUpper := by
  have hletter : 97 ≤ letter.toNat ∧ letter.toNat ≤ 122 :=
    (Bool.and_eq_true_iff.mp h).imp of_decide_eq_true of_decide_eq_true
  rw [← Char.toNat_inj, ← Char.toNat_inj, ← Char.toNat_inj, toNat_toLower, toNat_toUpper,
    if_pos hletter]
  split <;> omega

/-- The text is a row of small letters, or some of their capitals in their places. -/
def Spells (t : Text) (letters : List Char) : Prop :=
  List.Forall₂ (fun c letter => c = .char letter ∨ c = .char letter.toUpper) t letters

/-- A text is a word of small letters in lower case if it spells that word. -/
theorem lowerCase_eq_ofChars_iff {letters : List Char}
    (h : ∀ letter ∈ letters, letter.isLower = true) (t : Text) :
    lowerCase t = ofChars letters ↔ t.Spells letters := by
  induction letters generalizing t with
  | nil =>
    rw [Spells, List.forall₂_nil_right_iff, ofChars, List.map_nil, lowerCase, List.map_eq_nil_iff]
  | cons letter letters ih =>
    obtain ⟨hletter, hletters⟩ := List.forall_mem_cons.mp h
    cases t with
    | nil => simp [Spells, lowerCase, ofChars]
    | cons c t =>
      have hrest := ih hletters t
      rw [lowerCase, ofChars, Spells] at hrest
      rw [lowerCase, ofChars, Spells, List.map_cons, List.map_cons, List.cons.injEq,
        List.forall₂_cons, hrest]
      refine and_congr_left fun _ => ?_
      cases c with
      | char c => simp only [CodePoint.char.injEq, toLower_eq_iff hletter]
      | surrogate n => exact iff_of_false nofun (by rintro (h | h) <;> cases h)

end Text

namespace Command

/-! ### Truth values -/

/-- The value is the word for a truth value, in capital or small letters. -/
def IsTruth (value : Text) (b : Bool) : Prop :=
  value.Spells (if b then "true" else "false").toList

/-- A value is the word for a truth value if it is that word in lower case. -/
theorem lowerCase_eq_iff_isTruth (value : Text) (b : Bool) :
    Text.lowerCase value = Text.ofString (if b then "true" else "false") ↔ IsTruth value b := by
  have hletters : (if b then "true" else "false").toList.all Char.isLower = true := by
    cases b <;> rfl
  exact Text.lowerCase_eq_ofChars_iff (List.all_eq_true.mp hletters) value

theorem truth?_eq_some_iff {value : Text} {b : Bool} :
    truth? value = some b ↔ IsTruth value b := by
  rw [truth?, ← lowerCase_eq_iff_isTruth]
  split
  · next htrue => cases b <;> simp [htrue]
  · next htrue =>
    split
    · next hfalse => cases b <;> simp [hfalse]
    · next hfalse => cases b <;> simp [htrue, hfalse]

/-! ### Pairs -/

/-- The item is a pair: a name of at least one character, the first equals sign, and a value. -/
structure IsPair (item name value : Text) : Prop where
  item_eq : item = name ++ .char '=' :: value
  notMem : .char '=' ∉ name
  ne_nil : name ≠ []

variable {item name value : Text} {items : List Text} {table entries : Fields Text}

theorem cut_of_isPair (h : IsPair item name value) : Text.cut '=' item = (name, some value) := by
  rw [h.item_eq, Text.cut_append h.notMem]

/-- An item is one pair at most. -/
theorem IsPair.eq {other otherValue : Text} (h : IsPair item name value)
    (hother : IsPair item other otherValue) : name = other ∧ value = otherValue := by
  have hcut := (cut_of_isPair h).symm.trans (cut_of_isPair hother)
  simpa using hcut

theorem addPairs_of_isPair (h : IsPair item name value) :
    addPairs table (item :: items) = addPairs (table.set name value) items := by
  rw [addPairs, cut_of_isPair h]
  exact if_neg (by simpa using h.ne_nil)

/-- An item is refused only if it is no pair. -/
theorem exists_isPair_or_addPairs_eq_error (table : Fields Text) (item : Text) (items : List Text) :
    (∃ name value, IsPair item name value) ∨
      (∀ name value, ¬ IsPair item name value) ∧
        addPairs table (item :: items) = .error (.notPair item) := by
  by_cases h : ∃ name value, IsPair item name value
  · exact .inl h
  · have hnone : ∀ name value, ¬ IsPair item name value :=
      fun name value hpair => h ⟨name, value, hpair⟩
    refine .inr ⟨hnone, ?_⟩
    rw [addPairs]
    cases hcut : Text.cut '=' item with
    | mk name value? =>
      cases value? with
      | none => rfl
      | some value =>
        have hname : name = [] := by
          by_contra hne
          have hbefore : .char '=' ∉ name := by
            have hmem := Text.separator_not_mem_before '=' item
            rwa [Text.before, hcut] at hmem
          exact hnone name value ⟨Text.append_of_cut hcut, hbefore, hne⟩
        simp [hname]

/-- The value stands in the last one of the items that have this name. -/
def IsLastValue (items : List Text) (name value : Text) : Prop :=
  ∃ before item after, items = before ++ item :: after ∧ IsPair item name value ∧
    ∀ later ∈ after, ∀ v, ¬ IsPair later name v

theorem not_isLastValue_nil : ¬ IsLastValue [] name value := by
  rintro ⟨before, item, after, h, -⟩
  simp at h

/-- The last value is one of the other items', or the first item's if none of the others has the
name. -/
theorem isLastValue_cons_iff :
    IsLastValue (item :: items) name value ↔
      IsLastValue items name value ∨
        IsPair item name value ∧ ∀ later ∈ items, ∀ v, ¬ IsPair later name v := by
  constructor
  · rintro ⟨before, last, after, h, hpair, hafter⟩
    cases before with
    | nil =>
      obtain ⟨rfl, rfl⟩ := List.cons.inj h
      exact .inr ⟨hpair, hafter⟩
    | cons first before => exact .inl ⟨before, last, after, (List.cons.inj h).2, hpair, hafter⟩
  · rintro (⟨before, last, after, rfl, hpair, hafter⟩ | ⟨hpair, hitems⟩)
    · exact ⟨item :: before, last, after, rfl, hpair, hafter⟩
    · exact ⟨[], item, items, rfl, hpair, hitems⟩

/-! ### The table that pairs make up -/

/-- Items are refused for one of them that is no pair. -/
theorem fault_of_addPairs {fault : BadValue} (h : addPairs table items = .error fault) :
    ∃ item ∈ items, (∀ name value, ¬ IsPair item name value) ∧ fault = .notPair item := by
  induction items generalizing table with
  | nil => cases h
  | cons item items ih =>
    rcases exists_isPair_or_addPairs_eq_error table item items with ⟨_, _, hpair⟩ | ⟨hnone, herror⟩
    · rw [addPairs_of_isPair hpair] at h
      obtain ⟨bad, hmem, hbad⟩ := ih h
      exact ⟨bad, List.mem_cons_of_mem _ hmem, hbad⟩
    · rw [herror] at h
      exact ⟨item, List.mem_cons_self, hnone, (Except.error.inj h).symm⟩

/-- If items are accepted, the first one is a pair, which is added before the others. -/
theorem exists_isPair_of_addPairs_cons (h : addPairs table (item :: items) = .ok entries) :
    ∃ name value, IsPair item name value ∧
      addPairs (table.set name value) items = .ok entries := by
  rcases exists_isPair_or_addPairs_eq_error table item items with ⟨name, value, hpair⟩ | ⟨-, herror⟩
  · exact ⟨name, value, hpair, addPairs_of_isPair hpair ▸ h⟩
  · rw [herror] at h
    cases h

theorem forall_isPair_of_addPairs (h : addPairs table items = .ok entries) :
    ∀ item ∈ items, ∃ name value, IsPair item name value := by
  induction items generalizing table with
  | nil => exact List.forall_mem_nil _
  | cons item items ih =>
    obtain ⟨name, value, hpair, hrest⟩ := exists_isPair_of_addPairs_cons h
    exact List.forall_mem_cons.mpr ⟨⟨name, value, hpair⟩, ih hrest⟩

theorem nodup_names_addPairs (htable : table.names.Nodup)
    (h : addPairs table items = .ok entries) : entries.names.Nodup := by
  induction items generalizing table with
  | nil => exact Except.ok.inj h ▸ htable
  | cons item items ih =>
    obtain ⟨name, value, -, hrest⟩ := exists_isPair_of_addPairs_cons h
    exact ih (Fields.nodup_names_set htable name value) hrest

/-- After pairs are added a name has its last value, or the one from before if no pair has the
name. -/
theorem get?_addPairs (h : addPairs table items = .ok entries) (name value : Text) :
    entries.get? name = some value ↔ IsLastValue items name value ∨
      table.get? name = some value ∧ ∀ item ∈ items, ∀ v, ¬ IsPair item name v := by
  induction items generalizing table with
  | nil =>
    obtain rfl := Except.ok.inj h
    simp [not_isLastValue_nil]
  | cons item items ih =>
    obtain ⟨key, v, hpair, hrest⟩ := exists_isPair_of_addPairs_cons h
    rw [ih hrest, isLastValue_cons_iff, or_assoc]
    refine or_congr_right ?_
    by_cases hname : key = name
    · subst hname
      have hkey : ∀ u, IsPair item key u ↔ v = u :=
        fun u => ⟨fun hu => (hpair.eq hu).2, fun hu => hu ▸ hpair⟩
      rw [Fields.get?_set_self, Option.some_inj, hkey]
      simp [hkey]
    · have hkey : ∀ u, ¬ IsPair item name u := fun u hu => hname (hpair.eq hu).1
      rw [Fields.get?_set_of_ne _ _ (Ne.symm hname)]
      simp [hkey]

/-- In the table that pairs make up a name has its last value. -/
theorem get?_pairs (h : pairs items = .ok table) (name value : Text) :
    table.get? name = some value ↔ IsLastValue items name value := by
  rw [get?_addPairs h, Fields.get?_nil]
  simp

theorem nodup_names_pairs (h : pairs items = .ok table) : table.names.Nodup :=
  have hnil : (Fields.names ([] : Fields Text)).Nodup := List.nodup_nil
  nodup_names_addPairs hnil h

/-! ### The table of truth values -/

/-- A table is refused for a text in it that is no truth value. -/
theorem fault_of_truths {fault : BadValue} (h : truths table = .error fault) :
    ∃ name value, (name, value) ∈ table ∧ truth? value = none ∧ fault = .notTruth name value := by
  induction table with
  | nil => cases h
  | cons entry rest ih =>
    obtain ⟨name, value⟩ := entry
    cases htruth : truth? value with
    | none =>
      rw [truths, htruth] at h
      exact ⟨name, value, List.mem_cons_self, htruth, (Except.error.inj h).symm⟩
    | some b =>
      rw [truths, htruth] at h
      rcases bind_eq_error.mp h with hrest | ⟨_, _, hpure⟩
      · obtain ⟨other, v, hmem, hv⟩ := ih hrest
        exact ⟨other, v, List.mem_cons_of_mem _ hmem, hv⟩
      · cases hpure

/-- In a table that is accepted every text is a truth value, and it is seen as that. -/
theorem get?_truths {outcomes : Fields Bool} (h : truths table = .ok outcomes) (name : Text) :
    (∀ value, table.get? name = some value → ∃ b, truth? value = some b) ∧
      outcomes.get? name = (table.get? name).bind truth? := by
  induction table generalizing outcomes with
  | nil =>
    obtain rfl := Except.ok.inj h
    exact ⟨nofun, rfl⟩
  | cons entry rest ih =>
    obtain ⟨key, v⟩ := entry
    cases htruth : truth? v with
    | none =>
      rw [truths, htruth] at h
      cases h
    | some b =>
      rw [truths, htruth] at h
      obtain ⟨others, hrest, hothers⟩ := bind_eq_ok.mp h
      obtain rfl := Except.ok.inj hothers
      rw [Fields.get?_cons, Fields.get?_cons]
      split
      · refine ⟨fun value hvalue => ⟨b, ?_⟩, htruth.symm⟩
        rw [← Option.some.inj hvalue, htruth]
      · exact ih hrest

/-! ### Which conditions are accepted -/

/-- Items that are not accepted are refused for one of them that is no pair, or for the last value
of a name that is no truth value. -/
theorem fault_of_conditions {fault : BadValue} (h : conditions items = .error fault) :
    (∃ item ∈ items, (∀ name value, ¬ IsPair item name value) ∧ fault = .notPair item) ∨
      ∃ name value, IsLastValue items name value ∧ (∀ b, ¬ IsTruth value b) ∧
        fault = .notTruth name value := by
  rcases bind_eq_error.mp h with hpairs | ⟨table, hpairs, htruths⟩
  · exact .inl (fault_of_addPairs hpairs)
  · obtain ⟨name, value, hmem, htruth, rfl⟩ := fault_of_truths htruths
    have hget : table.get? name = some value := Fields.get?_of_mem (nodup_names_pairs hpairs) hmem
    refine .inr ⟨name, value, (get?_pairs hpairs name value).mp hget, fun b hb => ?_, rfl⟩
    rw [truth?_eq_some_iff.mpr hb] at htruth
    cases htruth

/-- **Conditions are accepted by their last values.**  Items are accepted if and only if each of
them is a pair and the last value of every name is a truth value, and then the table has that truth
value for the name.  A value is not checked if a later item has the same name. -/
theorem conditions_accepts_iff (items : List Text) :
    ((∃ outcomes, conditions items = .ok outcomes) ↔
      (∀ item ∈ items, ∃ name value, IsPair item name value) ∧
        ∀ name value, IsLastValue items name value → ∃ b, IsTruth value b) ∧
      ∀ outcomes, conditions items = .ok outcomes → ∀ name b,
        outcomes.get? name = some b ↔ ∃ value, IsLastValue items name value ∧ IsTruth value b := by
  refine ⟨⟨?_, ?_⟩, ?_⟩
  · rintro ⟨outcomes, h⟩
    obtain ⟨table, hpairs, htruths⟩ := bind_eq_ok.mp h
    refine ⟨forall_isPair_of_addPairs hpairs, fun name value hlast => ?_⟩
    have hget : table.get? name = some value := (get?_pairs hpairs name value).mpr hlast
    obtain ⟨b, hb⟩ := (get?_truths htruths name).1 value hget
    exact ⟨b, truth?_eq_some_iff.mp hb⟩
  · rintro ⟨hpairs, htruth⟩
    cases hresult : conditions items with
    | ok outcomes => exact ⟨outcomes, rfl⟩
    | error fault =>
      rcases fault_of_conditions hresult with
        ⟨item, hmem, hnone, -⟩ | ⟨name, value, hlast, hnone, -⟩
      · obtain ⟨name, value, hpair⟩ := hpairs item hmem
        exact absurd hpair (hnone name value)
      · obtain ⟨b, hb⟩ := htruth name value hlast
        exact absurd hb (hnone b)
  · intro outcomes h name b
    obtain ⟨table, hpairs, htruths⟩ := bind_eq_ok.mp h
    rw [(get?_truths htruths name).2, Option.bind_eq_some_iff]
    simp only [get?_pairs hpairs, truth?_eq_some_iff]

/-- The name "A" is given twice, and the first of its values is no truth value. -/
theorem conditions_accepts_iff_of_repeated_name :
    conditions ["A=maybe", "B=FALSE", "A=True"] = .ok [("A", true), ("B", false)] ∧
      ∃ value, IsLastValue ["A=maybe", "B=FALSE", "A=True"] "A" value ∧ IsTruth value true :=
  have haccepted : conditions ["A=maybe", "B=FALSE", "A=True"] =
      .ok [("A", true), ("B", false)] := by decide
  ⟨haccepted, ((conditions_accepts_iff _).2 _ haccepted "A" true).mp (by decide)⟩

/-- A value that is no truth value is accepted if a later pair overwrites it. -/
theorem conditions_accepts_overwritten_value :
    let items : List Text := ["A=maybe", "A=true"]
    ¬ ((∃ outcomes, conditions items = .ok outcomes) ↔
      ∀ item ∈ items, ∃ name value b, IsPair item name value ∧ IsTruth value b) := by
  intro items hiff
  have haccepted : conditions items = .ok [("A", true)] := by decide
  have hmaybe : IsPair "A=maybe" "A" "maybe" := ⟨rfl, by decide, by decide⟩
  obtain ⟨name, value, b, hpair, htruth⟩ :=
    hiff.mp ⟨_, haccepted⟩ "A=maybe" List.mem_cons_self
  obtain ⟨-, rfl⟩ := hmaybe.eq hpair
  exact absurd (truth?_eq_some_iff.mpr htruth) (by cases b <;> decide)

/-! ### From the arguments of a command -/

namespace Settings

variable {name : Name} {files : Files} {occurrences : List Occurrence} {settings next : Settings}

/-- Only the values for conditions make up the table of conditions. -/
theorem conditions_of_take {key : Key} {values : List Text}
    (h : settings.take name files key values = .ok next) :
    (key = .conditions → Command.conditions values = .ok next.conditions) ∧
      (key ≠ .conditions → next.conditions = settings.conditions) := by
  cases key with
  | conditions =>
    obtain ⟨table, htable, hnext⟩ := bind_eq_ok.mp h
    obtain rfl := Except.ok.inj hnext
    exact ⟨fun _ => mapError_eq_ok.mp htable, fun hne => absurd rfl hne⟩
  | parameters | pseudo | renames =>
    obtain ⟨table, -, hnext⟩ := bind_eq_ok.mp h
    obtain rfl := Except.ok.inj hnext
    exact ⟨nofun, fun _ => rfl⟩
  | placeholders | fromAws | resolveSsm | stackName | profile | region | help | version | verbose
  | templateFile =>
    obtain rfl := Except.ok.inj h
    exact ⟨nofun, fun _ => rfl⟩
  | outputFile =>
    refine ⟨nofun, fun _ => ?_⟩
    rw [take] at h
    split at h
    · obtain rfl := Except.ok.inj h
      rfl
    · obtain ⟨found, -, hfound⟩ := bind_eq_ok.mp h
      cases found with
      | directory => cases hfound
      | nothing | file => exact Except.ok.inj hfound ▸ rfl
  | output =>
    refine ⟨nofun, fun _ => ?_⟩
    rw [take] at h
    split at h
    · obtain rfl := Except.ok.inj h
      rfl
    · split at h
      · obtain rfl := Except.ok.inj h
        rfl
      · cases h

/-- If values for conditions are taken at all, they make up the table. -/
theorem conditions_of_takeAll {keys : List Key}
    (h : takeAll name files occurrences settings keys = .ok next) :
    (.conditions ∈ keys →
        Command.conditions (valuesOf occurrences .conditions) = .ok next.conditions) ∧
      (.conditions ∉ keys → next.conditions = settings.conditions) := by
  induction keys generalizing settings with
  | nil =>
    obtain rfl := Except.ok.inj h
    exact ⟨nofun, fun _ => rfl⟩
  | cons key keys ih =>
    obtain ⟨taken, htake, hrest⟩ := bind_eq_ok.mp h
    obtain ⟨hgiven, hkept⟩ := conditions_of_take htake
    obtain ⟨hmem, hnotMem⟩ := ih hrest
    by_cases hkeys : .conditions ∈ keys
    · exact ⟨fun _ => hmem hkeys, fun hnot => absurd (List.mem_cons_of_mem _ hkeys) hnot⟩
    · rw [hnotMem hkeys, List.mem_cons, or_iff_left hkeys]
      exact ⟨fun heq => heq ▸ hgiven heq.symm, fun hne => hkept (Ne.symm hne)⟩

/-- The conditions in the settings of a command are the table that all values make up which its
arguments give for them; no other switch adds to it, and without such a value it is empty. -/
theorem conditions_of_ofArguments {positional : List Text}
    (h : ofArguments name files occurrences positional = .ok settings) :
    Command.conditions (valuesOf occurrences .conditions) = .ok settings.conditions := by
  obtain ⟨taken, htaken, hfile⟩ := bind_eq_ok.mp h
  have hconditions : settings.conditions = taken.conditions := by
    cases positional with
    | nil => cases hfile
    | cons path rest =>
      obtain ⟨found, -, hfound⟩ := bind_eq_ok.mp hfile
      cases found with
      | nothing | directory => cases hfound
      | file =>
        cases rest with
        | nil => exact Except.ok.inj hfound ▸ rfl
        | cons => cases hfound
  rw [hconditions]
  obtain ⟨hmem, hnotMem⟩ := conditions_of_takeAll htaken
  by_cases hgiven : .conditions ∈ (occurrences.map (·.key)).eraseDups
  · exact hmem hgiven
  · have hnone : valuesOf occurrences .conditions = [] := by
      rw [List.mem_eraseDups, List.mem_map] at hgiven
      rw [valuesOf, List.filterMap_eq_nil_iff]
      exact fun o ho => if_neg fun hkey => hgiven ⟨o, ho, hkey⟩
    rw [hnone, hnotMem hgiven]
    rfl

end Settings

end Command

end CloudTemplate
