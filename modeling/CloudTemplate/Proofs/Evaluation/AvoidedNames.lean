import CloudTemplate.Proofs.Evaluation.Reduction
import CloudTemplate.Proofs.Evaluation.CallFree
import CloudTemplate.Proofs.Expander.Mentions

/-!
# Names to which a value comes not to refer

A value avoids names if no map in it has an entry that refers to one of them, taken as a call.  Maps
with several entries count too: entries can disappear until a single one is left, which is a call
then.  What is left of a value avoids what the value avoids (`Dispatch.avoids_reduce`), as long as
nothing that is known refers to one of the names and no call gives one to a reference.
-/

namespace CloudTemplate

open Intrinsic (isName isDeferred call?)
open Expander (referenced?)

instance decidableForallOk {ε α : Type} (x : Except ε α) (P : α → Prop) [DecidablePred P] :
    Decidable (∀ a, x = .ok a → P a) :=
  match x with
  | .ok a => decidable_of_iff (P a) ⟨fun h _ hok => Except.ok.inj hok ▸ h, fun h => h a rfl⟩
  | .error _ => .isTrue nofun

/-! ### The maps in a value -/

namespace Value

mutual

/-- The maps in a value, by their entries, without the calls that are left to the deployment and
what is inside them. -/
def maps : Value → List (Fields Value)
  | .list items => mapsOfItems items
  | .map entries =>
    if (Value.map entries).isDeferredCall then [] else entries :: mapsOfEntries entries
  | _ => []

/-- The maps in the items of a list. -/
def mapsOfItems : List Value → List (Fields Value)
  | [] => []
  | v :: rest => v.maps ++ mapsOfItems rest

/-- The maps in the values of entries. -/
def mapsOfEntries : List (Text × Value) → List (Fields Value)
  | [] => []
  | (_, v) :: rest => v.maps ++ mapsOfEntries rest

end

theorem mem_mapsOfItems {entries : Fields Value} {items : List Value} :
    entries ∈ mapsOfItems items ↔ ∃ v ∈ items, entries ∈ v.maps := by
  induction items with
  | nil => simp [mapsOfItems]
  | cons v rest ih => simp [mapsOfItems, ih]

theorem mem_mapsOfEntries {others : Fields Value} {entries : List (Text × Value)} :
    others ∈ mapsOfEntries entries ↔ ∃ entry ∈ entries, others ∈ entry.2.maps := by
  induction entries with
  | nil => simp [mapsOfEntries]
  | cons entry rest ih => simp [mapsOfEntries, ih]

/-- All maps in a value have a property. -/
def Everywhere (P : Fields Value → Prop) (v : Value) : Prop :=
  ∀ entries ∈ v.maps, P entries

instance (P : Fields Value → Prop) [DecidablePred P] (v : Value) : Decidable (v.Everywhere P) :=
  inferInstanceAs (Decidable (∀ entries ∈ v.maps, P entries))

section Everywhere

variable {P : Fields Value → Prop} {entries : List (Text × Value)}

theorem everywhere_atom {v : Value} (h : v.isAtom = true) : v.Everywhere P := by
  cases v with
  | null | bool | int | double | string => simp [Everywhere, maps]
  | list | map => cases h

theorem everywhere_list {items : List Value} :
    (list items).Everywhere P ↔ ∀ v ∈ items, v.Everywhere P := by
  simp only [Everywhere, maps, mem_mapsOfItems]
  exact ⟨fun h v hv entries hentries => h entries ⟨v, hv, hentries⟩,
    fun h entries ⟨v, hv, hentries⟩ => h v hv entries hentries⟩

theorem everywhere_ofStrings (texts : List Text) : (ofStrings texts).Everywhere P :=
  everywhere_list.mpr (List.forall_mem_map.mpr fun _ _ => everywhere_atom rfl)

theorem everywhere_map_nil (h : P []) : (map []).Everywhere P :=
  fun _ hentries => List.mem_singleton.mp hentries ▸ h

theorem everywhere_of_isDeferredCall (h : (map entries).isDeferredCall = true) :
    (map entries).Everywhere P := by
  simp [Everywhere, maps, h]

theorem everywhere_map (h : (map entries).isDeferredCall = false) :
    (map entries).Everywhere P ↔ P entries ∧ ∀ entry ∈ entries, entry.2.Everywhere P := by
  simp only [Everywhere, maps, h, Bool.false_eq_true, if_false, List.forall_mem_cons,
    mem_mapsOfEntries]
  refine and_congr_right fun _ => ?_
  exact ⟨fun h entry hentry others hothers => h others ⟨entry, hentry, hothers⟩,
    fun h others ⟨entry, hentry, hothers⟩ => h entry hentry others hothers⟩

theorem everywhere_call {function : Text} {argument : Value} (h : isDeferred function = false) :
    (call function argument).Everywhere P ↔ P [(function, argument)] ∧ argument.Everywhere P := by
  have hcall : (map [(function, argument)]).isDeferredCall = false := h
  rw [call, everywhere_map hcall, List.forall_mem_singleton]

/-- What holds of all maps in any case. -/
theorem everywhere_map_of (h : P entries) (hvalues : ∀ entry ∈ entries, entry.2.Everywhere P) :
    (map entries).Everywhere P := by
  cases hd : (map entries).isDeferredCall with
  | true => exact everywhere_of_isDeferredCall hd
  | false => exact (everywhere_map hd).mpr ⟨h, hvalues⟩

end Everywhere

end Value

/-! ### References -/

/-- A value that gives a name only when it is evaluated: a call, or a list that begins with one. -/
def Value.beginsWithCall : Value → Bool
  | .list (v :: _) => v.isCall
  | v => v.isCall

/-- No entry of a map refers to one of some names, taken as a call. -/
def AvoidNames (names : Text → Prop) (entries : Fields Value) : Prop :=
  ∀ entry ∈ entries, ∀ name, referenced? entry.1 entry.2 = some name → ¬ names name

instance (names : Text → Prop) [DecidablePred names] : DecidablePred (AvoidNames names) :=
  fun entries => inferInstanceAs (Decidable (∀ entry ∈ entries, ∀ name,
    referenced? entry.1 entry.2 = some name → ¬ names name))

/-- No map in a value has an entry that refers to one of some names, taken as a call. -/
abbrev Value.Avoids (names : Text → Prop) (v : Value) : Prop :=
  v.Everywhere (AvoidNames names)

/-- Nothing that is known of a deployment refers to one of some names. -/
structure Deployment.Avoids (d : Deployment) (names : Text → Prop) : Prop where
  parameters : ∀ {name v}, d.parameters.get? name = some v → v.Avoids names
  attributes : ∀ {resource attr v}, d.attribute? resource attr = some v → v.Avoids names
  mappings : ∀ {name topKey secondKey v},
    Intrinsic.findEntry d name topKey secondKey = .ok v → v.Avoids names
  noValue : ¬ names Intrinsic.noValue

variable {names : Text → Prop}

/-- Without mappings it is enough to look at the parameters and the attributes. -/
theorem Deployment.avoids_of_mappings_eq_none {d : Deployment} (hmappings : d.mappings = none)
    (hparameters : ∀ entry ∈ d.parameters, entry.2.Avoids names)
    (hattributes : ∀ known ∈ d.attributes, ∀ entry ∈ known.2, entry.2.Avoids names)
    (hnoValue : ¬ names Intrinsic.noValue) : d.Avoids names where
  parameters h := hparameters _ (Fields.mem_of_get? h)
  attributes h := by
    obtain ⟨known, hknown, hv⟩ := Option.bind_eq_some_iff.mp h
    exact hattributes _ (Fields.mem_of_get? hknown) _ (Fields.mem_of_get? hv)
  mappings h := by
    rw [Intrinsic.findEntry, hmappings] at h
    cases h
  noValue := hnoValue

/-- Names that a value avoids are not mentioned by it. -/
theorem Value.Avoids.not_mentions {v : Value} (h : v.Avoids names) {name : Text}
    (hname : names name) : ¬ Mentions name v := by
  intro hmentions
  induction hmentions with
  | ref =>
    exact ((Value.everywhere_call (by decide)).mp h).1 _ List.mem_cons_self name rfl hname
  | attributeOfList rest =>
    exact ((Value.everywhere_call (by decide)).mp h).1 _ List.mem_cons_self name rfl hname
  | attributeOfText text htext =>
    exact ((Value.everywhere_call (by decide)).mp h).1 _ List.mem_cons_self name
      (congrArg some htext) hname
  | item hv _ ih => exact ih (Value.everywhere_list.mp h _ hv)
  | entry hentry hd _ ih => exact ih (((Value.everywhere_map hd).mp h).2 _ hentry)

namespace Intrinsic

open Substitution (substitute substitute_cases carried)

/-- What an argument names is the resource to which the call refers. -/
theorem referenced?_of_attributeTarget {argument : Value} {resource attr : Text}
    (h : attributeTarget argument = .ok (resource, attr)) :
    referenced? getAtt argument = some resource := by
  unfold attributeTarget at h
  split at h
  · next items =>
    split at h
    · cases h
    · obtain ⟨parts, hparts, h⟩ := bind_eq_ok.mp h
      match items, hparts with
      | [], hparts =>
        obtain rfl := Except.ok.inj hparts
        cases h
      | .string s :: rest, hparts =>
        obtain ⟨others, -, hothers⟩ := bind_eq_ok.mp hparts
        obtain rfl := Except.ok.inj hothers
        obtain ⟨rfl, -⟩ := Prod.mk.inj (Except.ok.inj h)
        rfl
  · next text =>
    split at h
    · next before after hcut =>
      split at h
      · cases h
      · obtain ⟨rfl, -⟩ := Prod.mk.inj (Except.ok.inj h)
        exact congrArg (some ·.1) hcut
    · cases h
  · cases h

theorem eq_ref_or_getAtt_of_referenced? {function name : Text} {argument : Value}
    (h : referenced? function argument = some name) : function = ref ∨ function = getAtt := by
  unfold referenced? at h
  split at h
  · split at h
    · next hf => exact .inl hf
    · split at h
      · next hf => exact .inr hf
      · cases h
  · split at h
    · next hf => exact .inr hf
    · cases h
  · cases h

theorem avoids_call {function : Text} {argument : Value}
    (h : ∀ name, referenced? function argument = some name → ¬ names name)
    (hargument : argument.Avoids names) : (Value.call function argument).Avoids names :=
  Value.everywhere_map_of (List.forall_mem_singleton.mpr h)
    (List.forall_mem_singleton.mpr hargument)

/-- A call of a function that makes no references avoids what its argument avoids. -/
theorem avoids_call_of_ne {function : Text} {argument : Value} (href : function ≠ ref)
    (hatt : function ≠ getAtt) (hargument : argument.Avoids names) :
    (Value.call function argument).Avoids names :=
  avoids_call (fun _ h => ((eq_ref_or_getAtt_of_referenced? h).elim href hatt).elim) hargument

theorem avoids_filter {entries : Fields Value} (h : (Value.map entries).Avoids names)
    (keep : Text × Value → Bool) : (Value.map (entries.filter keep)).Avoids names := by
  cases hd : (Value.map entries).isDeferredCall with
  | false =>
    obtain ⟨hentries, hvalues⟩ := (Value.everywhere_map hd).mp h
    exact Value.everywhere_map_of
      (fun entry hentry => hentries entry (List.mem_filter.mp hentry).1)
      fun entry hentry => hvalues entry (List.mem_filter.mp hentry).1
  | true =>
    match entries, hd with
    | [entry], hd =>
      rw [List.filter_cons, List.filter_nil]
      split
      · exact h
      · exact Value.everywhere_map_nil (List.forall_mem_nil _)

/-- The local variables that a text carries along are among those that it is given. -/
theorem avoids_substitute {d : Deployment} {locals : Fields Value}
    (h : (Value.map locals).Avoids names) (text : Text) :
    (substitute d locals text).Avoids names := by
  obtain ⟨-, heq⟩ | ⟨-, -, heq⟩ | ⟨-, -, heq⟩ := substitute_cases d locals text
  all_goals rw [heq]
  · exact Value.everywhere_atom rfl
  · exact avoids_call_of_ne (by decide) (by decide) (Value.everywhere_atom rfl)
  · refine avoids_call_of_ne (by decide) (by decide) (Value.everywhere_list.mpr ?_)
    rw [List.forall_mem_cons, List.forall_mem_singleton]
    exact ⟨Value.everywhere_atom rfl, avoids_filter h _⟩

theorem avoids_of_invoked {d : Deployment} (hd : d.Avoids names) {function : Text}
    {argument : Value} {outcome : Outcome} (h : Invoked d function argument outcome)
    (hreference : ∀ name, referenced? function argument = some name → ¬ names name)
    (hargument : argument.Avoids names) : outcome.kept.Avoids names := by
  cases h with
  | kept => exact avoids_call hreference hargument
  | noValue => exact avoids_call hreference hargument
  | pseudo | condition => exact Value.everywhere_atom rfl
  | parameter _ _ h => exact hd.parameters h
  | attributeKnown _ h => exact hd.attributes h
  | attributeKept htarget =>
    have hresource := hreference _ (referenced?_of_attributeTarget htarget)
    refine avoids_call (fun name hname => ?_) (Value.everywhere_ofStrings _)
    obtain rfl := Option.some.inj hname
    exact hresource
  | mapping h => exact hd.mappings h
  | branch h =>
    rw [Outcome.kept_ofBranch]
    exact Value.everywhere_list.mp hargument _ (by split <;> simp)
  | text t =>
    exact avoids_substitute (Value.everywhere_map_nil (List.forall_mem_nil _)) t
  | textWithLocals t locals =>
    exact avoids_substitute (Value.everywhere_list.mp hargument _ (by simp)) t

namespace Dispatch

variable {table : Dispatch} {d : Deployment}

theorem plain_of_isCall {entries : Fields Value} (h : (Value.map entries).isCall = false) :
    call? entries = none := by
  rwa [Value.isCall, Option.isSome_eq_false_iff, Option.isNone_iff_eq_none] at h

/-- A value that is no call gives a value, and no string but itself. -/
theorem exists_value_of_reduce {v : Value} (hcall : v.isCall = false) {outcome : Outcome}
    (hok : table.reduce d v = .ok outcome) :
    ∃ w, outcome = .value w ∧ ∀ s, w = .string s → v = .string s := by
  cases v with
  | null | bool | int | double | string =>
    rw [reduce_atom rfl] at hok
    exact ⟨_, (Except.ok.inj hok).symm, fun _ h => h⟩
  | list items =>
    obtain ⟨outcomes, -, rfl⟩ := reduce_list_eq_ok.mp hok
    exact ⟨_, rfl, nofun⟩
  | map entries =>
    obtain ⟨outcomes, -, rfl⟩ := (reduce_plain_eq_ok (plain_of_isCall hcall)).mp hok
    exact ⟨_, rfl, nofun⟩

theorem ne_ifElse_of_referenced? {function name : Text} {argument : Value}
    (h : referenced? function argument = some name) : function ≠ ifElse := by
  rcases eq_ref_or_getAtt_of_referenced? h with rfl | rfl <;> decide

/-- Where no call gives the name, evaluation makes an argument refer to nothing else. -/
theorem referenced?_of_reduceArgument {function name : Text} {argument evaluated : Value}
    (hcall : argument.beginsWithCall = false)
    (hok : table.reduceArgument d function argument = .ok evaluated)
    (h : referenced? function evaluated = some name) :
    referenced? function argument = some name := by
  obtain ⟨outcome, hreduce, rfl⟩ :=
    (reduceArgument_eq_ok_of_ne_ifElse (ne_ifElse_of_referenced? h)).mp hok
  cases argument with
  | null | bool | int | double | string =>
    rw [reduce_atom rfl] at hreduce
    obtain rfl := Except.ok.inj hreduce
    exact h
  | map entries =>
    obtain ⟨outcomes, -, rfl⟩ := (reduce_plain_eq_ok (plain_of_isCall hcall)).mp hreduce
    cases h
  | list items =>
    obtain ⟨outcomes, heach, rfl⟩ := reduce_list_eq_ok.mp hreduce
    match items, heach with
    | [], heach =>
      rw [reduceEach_nil] at heach
      obtain rfl := Except.ok.inj heach
      cases h
    | u :: rest, heach =>
      obtain ⟨outcome, others, hu, -, rfl⟩ := reduceEach_cons_eq_ok.mp heach
      obtain ⟨first, rfl, hfirst⟩ := exists_value_of_reduce hcall hu
      cases first with
      | string s =>
        rw [hfirst s rfl]
        exact h
      | null | bool | int | double | list | map => cases h

/-- No call gives one of some names to a reference that an entry of a map is, taken as a call. -/
def GivesNone (table : Dispatch) (d : Deployment) (names : Text → Prop) (entries : Fields Value) :
    Prop :=
  ∀ entry ∈ entries, entry.2.beginsWithCall = true →
    ∀ evaluated, table.reduceArgument d entry.1 entry.2 = .ok evaluated →
      ∀ name, referenced? entry.1 evaluated = some name → ¬ names name

instance (table : Dispatch) (d : Deployment) (names : Text → Prop) [DecidablePred names] :
    DecidablePred (GivesNone table d names) := fun entries =>
  inferInstanceAs (Decidable (∀ entry ∈ entries, entry.2.beginsWithCall = true →
    ∀ evaluated, table.reduceArgument d entry.1 entry.2 = .ok evaluated →
      ∀ name, referenced? entry.1 evaluated = some name → ¬ names name))

/-- An evaluated argument refers to none of some names, given that the argument itself does not
and that no call gives it one of the names. -/
theorem not_names_of_reduceArgument {entries : Fields Value}
    (hgiven : GivesNone table d names entries) (havoid : AvoidNames names entries)
    {entry : Text × Value} (hentry : entry ∈ entries) {evaluated : Value}
    (hok : table.reduceArgument d entry.1 entry.2 = .ok evaluated) {name : Text}
    (h : referenced? entry.1 evaluated = some name) : ¬ names name := by
  cases hcall : entry.2.beginsWithCall with
  | true => exact hgiven entry hentry hcall evaluated hok name h
  | false => exact havoid entry hentry name (referenced?_of_reduceArgument hcall hok h)

/-- An entry can be the only one that is left of a map, and then it is a call.  It refers to none of
the names either. -/
theorem not_names_of_reduceNamed {entries : List (Text × Value)}
    (hgiven : GivesNone table d names entries) (havoid : AvoidNames names entries)
    {outcomes : List (Text × Outcome)} (hok : table.reduceNamed d entries = .ok outcomes) :
    ∀ named ∈ outcomes, ∀ name, referenced? named.1 named.2.kept = some name → ¬ names name := by
  refine forall_mem_of_reduceNamed (fun entry hentry outcome hok name hname => ?_) hok
  have hevaluated := (reduceArgument_eq_ok_of_ne_ifElse (ne_ifElse_of_referenced? hname)).mpr
    ⟨outcome, hok, rfl⟩
  exact not_names_of_reduceArgument hgiven havoid hentry hevaluated hname

/-- What is left of a value avoids names. -/
def LeavesAvoiding (table : Dispatch) (d : Deployment) (names : Text → Prop) (v : Value) : Prop :=
  ∀ outcome, table.reduce d v = .ok outcome → outcome.kept.Avoids names

theorem avoids_of_reduceArgument {function : Text} {argument evaluated : Value}
    (h : LeavesAvoiding table d names argument)
    (hitems : ∀ items, argument = .list items → ∀ v ∈ items, LeavesAvoiding table d names v)
    (hok : table.reduceArgument d function argument = .ok evaluated) : evaluated.Avoids names := by
  cases argument with
  | list items =>
    obtain ⟨outcomes, heach, rfl⟩ := reduceArgument_list_eq_ok.mp hok
    have houtcomes := forall_mem_of_reduceEach (hitems items rfl) heach
    rw [Outcome.gathered, Value.Avoids, Value.everywhere_list]
    split
    · exact List.forall_mem_map.mpr houtcomes
    · exact fun v hv => houtcomes _ (Outcome.mem_items.mp hv)
  | null | bool | int | double | string | map =>
    obtain ⟨outcome, hreduce, rfl⟩ := (reduceArgument_eq_ok (by simp)).mp hok
    exact h outcome hreduce

/-- **Evaluation brings in no names.**  What is left of a value avoids names if the value does, no
call gives one of them to a reference, and nothing that is known of the deployment refers to one. -/
theorem avoids_reduce (htable : table.IsBuiltIn) (hd : d.Avoids names) {v : Value}
    (hgiven : v.Everywhere (GivesNone table d names)) (havoids : v.Avoids names) :
    LeavesAvoiding table d names v := by
  induction v using Value.induction with
  | atom v hv =>
    intro outcome hok
    rw [reduce_atom hv] at hok
    exact Except.ok.inj hok ▸ Value.everywhere_atom hv
  | list items ih =>
    intro outcome hok
    obtain ⟨outcomes, heach, rfl⟩ := reduce_list_eq_ok.mp hok
    have houtcomes := forall_mem_of_reduceEach
      (fun v hv => ih v hv (Value.everywhere_list.mp hgiven v hv)
        (Value.everywhere_list.mp havoids v hv)) heach
    exact Value.everywhere_list.mpr fun v hv => houtcomes _ (Outcome.mem_items.mp hv)
  | plain entries hcall ih =>
    intro outcome hok
    obtain ⟨outcomes, hnamed, rfl⟩ := (reduce_plain_eq_ok hcall).mp hok
    have hplain := Value.isDeferredCall_of_plain hcall
    obtain ⟨hgivenHere, hgiven⟩ := (Value.everywhere_map hplain).mp hgiven
    obtain ⟨havoidHere, havoids⟩ := (Value.everywhere_map hplain).mp havoids
    have hvalues : ∀ named ∈ outcomes, named.2.kept.Avoids names :=
      forall_mem_of_reduceNamed (fun entry hentry => ih entry hentry (hgiven entry hentry)
        (havoids entry hentry)) hnamed
    have hreferences := not_names_of_reduceNamed hgivenHere havoidHere hnamed
    refine Value.everywhere_map_of (fun entry hentry => ?_) fun entry hentry => ?_
    · exact hreferences _ (Outcome.mem_entries.mp hentry)
    · exact hvalues _ (Outcome.mem_entries.mp hentry)
  | call function argument hname ih ihs =>
    intro outcome hok
    cases hdeferred : isDeferred function with
    | true =>
      rw [reduce_deferred hname hdeferred] at hok
      exact Except.ok.inj hok ▸ havoids
    | false =>
      obtain ⟨hgivenHere, hgiven⟩ := (Value.everywhere_call hdeferred).mp hgiven
      obtain ⟨havoidHere, havoids⟩ := (Value.everywhere_call hdeferred).mp havoids
      obtain ⟨evaluated, hevaluated, hinvoke⟩ := (reduce_call_eq_ok hname hdeferred).mp hok
      have hargument : evaluated.Avoids names := by
        refine avoids_of_reduceArgument (ih hgiven havoids) ?_ hevaluated
        rintro items rfl v hv
        exact ihs items rfl v hv (Value.everywhere_list.mp hgiven v hv)
          (Value.everywhere_list.mp havoids v hv)
      rcases htable.invoked hinvoke with hinvoked | ⟨delimiter, texts, rfl, rfl⟩
      · refine avoids_of_invoked hd hinvoked (fun name hreference => ?_) hargument
        exact not_names_of_reduceArgument hgivenHere havoidHere List.mem_cons_self hevaluated
          hreference
      · exact Value.everywhere_atom rfl

end Dispatch

end Intrinsic

end CloudTemplate
