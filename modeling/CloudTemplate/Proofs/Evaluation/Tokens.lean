import CloudTemplate.Proofs.Evaluation.CallFree
import CloudTemplate.Proofs.Substitution.Staging

/-!
# Dollar signs in tokens only

`Value.isTokenized` says that in the strings of a value dollar signs only begin tokens, and those
only in texts with variables that stand literally in a call of `Fn::Sub`.  Inside the argument of
such a call there are no escapes either: an escape becomes a text that looks like a token.  There
evaluation keeps the property (`Dispatch.isTokenized_reduce`), so that the local variables of a text
never bring in new tokens.

This holds unless a call that is not evaluated yet is taken for a map of local variables, and the
substitution gives something else later than its text alone (`Dispatch.MistakesLocals`).
-/

namespace CloudTemplate

namespace Substitution

/-- Whether in a text dollar signs begin tokens only, which are no escapes if the text is part of
the argument of another substitution. -/
def isTemplate (nested : Bool) (text : Text) : Bool :=
  (scan text).all fun
    | .literal c => c ≠ dollar
    | .token name => !(nested && isEscape name)

variable {nested : Bool} {text : Text}

theorem isTemplate_iff : isTemplate nested text = true ↔
    (∀ c, Piece.literal c ∈ scan text → c ≠ dollar) ∧
      ∀ name, Piece.token name ∈ scan text → nested = true → isEscape name = false := by
  rw [isTemplate, List.all_eq_true]
  constructor
  · intro h
    refine ⟨fun c hc => of_decide_eq_true (h _ hc), fun name hname hnested => ?_⟩
    simpa [hnested] using h _ hname
  · rintro ⟨hliteral, htoken⟩ piece hpiece
    cases piece with
    | literal c => exact decide_eq_true (hliteral c hpiece)
    | token name =>
      cases nested with
      | false => rfl
      | true => simpa using htoken name hpiece rfl

/-- A text without dollar signs has no tokens. -/
theorem isTemplate_of_not_mem (h : dollar ∉ text) : isTemplate nested text = true := by
  rw [isTemplate_iff, scan_of_not_mem h]
  constructor
  · intro c hc
    obtain ⟨_, hmem, heq⟩ := List.mem_map.mp hc
    exact Piece.literal.inj heq ▸ ne_of_mem_of_not_mem hmem h
  · intro name hname
    obtain ⟨_, -, heq⟩ := List.mem_map.mp hname
    nomatch heq

end Substitution

namespace Value

open Substitution (isTemplate)

mutual

/-- Whether in the strings of a value dollar signs begin tokens only, in texts that stand literally
in a substitution; `nested` in the argument of a substitution. -/
def isTokenized (nested : Bool) : Value → Bool
  | .string s => !s.contains dollar
  | .list items => areTokenized nested items
  | .map [(name, argument)] =>
    if name = Intrinsic.sub then
      match argument with
      | .string text => isTemplate nested text
      | .list (.string text :: rest) => isTemplate nested text && areTokenized true rest
      | v => v.isTokenized true
    else argument.isTokenized nested
  | .map entries => entriesAreTokenized nested entries
  | _ => true

/-- Whether this holds of all items of a list. -/
def areTokenized (nested : Bool) : List Value → Bool
  | [] => true
  | v :: rest => v.isTokenized nested && areTokenized nested rest

/-- Whether this holds of the values in all entries of a map. -/
def entriesAreTokenized (nested : Bool) : List (Text × Value) → Bool
  | [] => true
  | (_, v) :: rest => v.isTokenized nested && entriesAreTokenized nested rest

end

variable {nested : Bool}

theorem areTokenized_iff {items : List Value} :
    areTokenized nested items = true ↔ ∀ v ∈ items, v.isTokenized nested = true := by
  induction items with
  | nil => simp [areTokenized]
  | cons v rest ih => rw [areTokenized, Bool.and_eq_true, ih, List.forall_mem_cons]

theorem entriesAreTokenized_iff {entries : List (Text × Value)} :
    entriesAreTokenized nested entries = true ↔
      ∀ entry ∈ entries, entry.2.isTokenized nested = true := by
  induction entries with
  | nil => simp [entriesAreTokenized]
  | cons entry rest ih => rw [entriesAreTokenized, Bool.and_eq_true, ih, List.forall_mem_cons]

theorem isTokenized_string {s : Text} :
    (string s).isTokenized nested = true ↔ dollar ∉ s := by
  simp [isTokenized]

theorem isTokenized_list {items : List Value} :
    (list items).isTokenized nested = true ↔ ∀ v ∈ items, v.isTokenized nested = true := by
  rw [isTokenized, areTokenized_iff]

/-- What `isTokenized` says of the argument of a substitution. -/
def IsSubArgument (nested : Bool) : Value → Prop
  | .string text => isTemplate nested text = true
  | .list (.string text :: rest) =>
    isTemplate nested text = true ∧ ∀ v ∈ rest, v.isTokenized true = true
  | v => v.isTokenized true = true

theorem isTokenized_sub {argument : Value} :
    (call Intrinsic.sub argument).isTokenized nested = true ↔ IsSubArgument nested argument := by
  rw [call, isTokenized.eq_def]
  simp only [if_true]
  unfold IsSubArgument
  split
  · rfl
  · rw [Bool.and_eq_true, areTokenized_iff]
  · rfl

/-- A map that is no substitution is tokenized if its values are. -/
theorem isTokenized_map {entries : List (Text × Value)}
    (h : ∀ argument, entries ≠ [(Intrinsic.sub, argument)]) :
    (map entries).isTokenized nested = true ↔
      ∀ entry ∈ entries, entry.2.isTokenized nested = true := by
  match entries, h with
  | [], _ => simp [isTokenized, entriesAreTokenized]
  | [(name, v)], h =>
    have hname : name ≠ Intrinsic.sub := fun hsub => h v (by rw [hsub])
    rw [isTokenized.eq_def]
    simp [hname]
  | _ :: _ :: _, _ => rw [isTokenized, entriesAreTokenized_iff]; simp

theorem isTokenized_plain {entries : List (Text × Value)} (h : Intrinsic.call? entries = none) :
    (map entries).isTokenized nested = true ↔
      ∀ entry ∈ entries, entry.2.isTokenized nested = true := by
  refine isTokenized_map fun argument hentries => ?_
  rw [hentries] at h
  nomatch h

theorem isTokenized_call {function : Text} {argument : Value} (h : function ≠ Intrinsic.sub) :
    (call function argument).isTokenized nested = true ↔ argument.isTokenized nested = true := by
  rw [call, isTokenized_map (by simp [h])]
  simp

/-- Without dollar signs of its own a value is a fine argument of a substitution. -/
theorem isSubArgument_of_isTokenized {argument : Value} (h : argument.isTokenized true = true) :
    IsSubArgument nested argument := by
  unfold IsSubArgument
  split
  · exact Substitution.isTemplate_of_not_mem (isTokenized_string.mp h)
  · rw [isTokenized_list, List.forall_mem_cons] at h
    exact ⟨Substitution.isTemplate_of_not_mem (isTokenized_string.mp h.1), h.2⟩
  · exact h

/-- Inside a substitution a map is tokenized if its values are, even if it is a substitution. -/
theorem isTokenized_map_of_entries {entries : List (Text × Value)}
    (h : ∀ entry ∈ entries, entry.2.isTokenized true = true) :
    (map entries).isTokenized true = true := by
  match entries, h with
  | [], _ => rfl
  | [(name, v)], h =>
    have hv : v.isTokenized true = true := h _ List.mem_cons_self
    by_cases hsub : name = Intrinsic.sub
    · subst hsub
      exact isTokenized_sub.mpr (isSubArgument_of_isTokenized hv)
    · exact (isTokenized_call hsub).mpr hv
  | _ :: _ :: _, h => rw [isTokenized, entriesAreTokenized_iff]; exacts [h, by simp]

/-- The argument of a call, or each of its items, is tokenized or is the text of a substitution. -/
theorem isTokenized_or_isAtom_of_call {function : Text} {argument : Value}
    (h : (call function argument).isTokenized nested = true) :
    ((∀ items, argument ≠ .list items) →
      argument.isAtom = true ∨ ∃ inside, argument.isTokenized inside = true) ∧
    ∀ items, argument = .list items →
      ∀ v ∈ items, v.isAtom = true ∨ ∃ inside, v.isTokenized inside = true := by
  have hall : ∀ {inside : Bool} {items : List Value}, (list items).isTokenized inside = true →
      ∀ v ∈ items, v.isAtom = true ∨ ∃ inside, v.isTokenized inside = true :=
    fun hlist v hv => .inr ⟨_, isTokenized_list.mp hlist v hv⟩
  by_cases hsub : function = Intrinsic.sub
  · subst hsub
    have hargument := isTokenized_sub.mp h
    unfold IsSubArgument at hargument
    split at hargument
    · exact ⟨fun _ => .inl rfl, nofun⟩
    · next text rest =>
      refine ⟨fun hlist => absurd rfl (hlist _), fun items heq v hv => ?_⟩
      rw [← Value.list.inj heq] at hv
      rcases List.mem_cons.mp hv with rfl | hv
      · exact .inl rfl
      · exact .inr ⟨true, hargument.2 v hv⟩
    · exact ⟨fun _ => .inr ⟨true, hargument⟩, by rintro items rfl; exact hall hargument⟩
  · rw [isTokenized_call hsub] at h
    exact ⟨fun _ => .inr ⟨nested, h⟩, by rintro items rfl; exact hall h⟩

mutual

theorem isTokenized_of_isDollarFree : ∀ {v : Value}, v.isDollarFree = true →
    v.isTokenized true = true
  | .null, _ | .bool _, _ | .int _, _ | .double _, _ => by simp [isTokenized]
  | .string _, h => isTokenized_string.mpr (isDollarFree_string.mp h)
  | .list items, h => by
    rw [isDollarFree] at h
    exact isTokenized_list.mpr (isTokenized_of_areDollarFree h)
  | .map entries, h => by
    rw [isDollarFree] at h
    exact isTokenized_map_of_entries (isTokenized_of_entriesAreDollarFree h)

theorem isTokenized_of_areDollarFree : ∀ {items : List Value}, areDollarFree items = true →
    ∀ v ∈ items, v.isTokenized true = true
  | [], _ => by simp
  | v :: rest, h => by
    rw [areDollarFree, Bool.and_eq_true] at h
    rw [List.forall_mem_cons]
    exact ⟨isTokenized_of_isDollarFree h.1, isTokenized_of_areDollarFree h.2⟩

theorem isTokenized_of_entriesAreDollarFree : ∀ {entries : List (Text × Value)},
    entriesAreDollarFree entries = true → ∀ entry ∈ entries, entry.2.isTokenized true = true
  | [], _ => by simp
  | (name, v) :: rest, h => by
    rw [entriesAreDollarFree, Bool.and_eq_true, Bool.and_eq_true] at h
    rw [List.forall_mem_cons]
    exact ⟨isTokenized_of_isDollarFree h.1.2, isTokenized_of_entriesAreDollarFree h.2⟩

end

end Value

/-! ### Substitution -/

namespace Substitution

variable {d : Deployment} {locals : Fields Value} {nested : Bool} {text : Text}

/-- A value that may take the place of a variable is an atom. -/
theorem text_of_scalarText? {v : Value} {t : Text} (h : scalarText? v = some t) :
    v.isAtom = true ∧ v.text = t := by
  cases v with
  | null | list | map => nomatch h
  | bool | int | double | string => exact ⟨rfl, Option.some.inj h⟩

/-- The texts of variables hold no dollar signs if the local ones have tokenized values. -/
theorem dollar_not_mem_lookup (hd : d.IsPlain)
    (hlocals : ∀ entry ∈ locals, entry.2.isTokenized true = true) {name t : Text}
    (h : lookup d locals name = some t) : dollar ∉ t := by
  have hscalar : ∀ {v : Value}, v.isDollarFree = true → scalarText? v = some t → dollar ∉ t := by
    intro v hv ht
    exact (text_of_scalarText? ht).2 ▸ Value.dollar_not_mem_text hv
  unfold lookup at h
  split at h
  · next v hv =>
    refine hscalar ?_ h
    have htokenized := hlocals _ (Fields.mem_of_get? hv)
    cases v with
    | string s => exact Value.isDollarFree_string.mpr (Value.isTokenized_string.mp htokenized)
    | null | bool | int | double => simp [Value.isDollarFree]
    | list | map => nomatch h
  · split at h
    · obtain ⟨v, hv, ht⟩ := Option.bind_eq_some_iff.mp h
      exact hscalar (hd.attributes hv).2 ht
    · split at h
      · next u hu => exact Option.some.inj h ▸ hd.pseudo hu
      · obtain ⟨v, hv, rfl⟩ := Option.map_eq_some_iff.mp h
        obtain ⟨u, hu, hnull⟩ := Option.bind_eq_some_iff.mp hv
        unfold Value.nonNull? at hnull
        split at hnull
        · nomatch hnull
        · exact Option.some.inj hnull ▸ Value.dollar_not_mem_text (hd.parameters hu).2

section Rendered

variable (htemplate : isTemplate nested text = true)
  (hknown : ∀ name ∈ variableNames (scan text), ∀ t, lookup d locals name = some t → dollar ∉ t)
include htemplate hknown

/-- A text that is rendered while variables are pending brings in no new tokens. -/
theorem isTemplate_render (hpending : pending d locals (scan text) ≠ []) :
    isTemplate nested (render d locals (scan text)) = true := by
  obtain ⟨hliteral, htoken⟩ := isTemplate_iff.mp htemplate
  rw [isTemplate_iff, scan_render hliteral hknown hpending]
  refine ⟨fun c hc => standsApart_of_mem_advance hliteral hknown hc, fun name hname hnested => ?_⟩
  obtain ⟨piece, hpiece, hmem⟩ := List.mem_flatMap.mp hname
  cases piece with
  | literal c => simp [advance] at hmem
  | token other =>
    have hother := htoken other hpiece hnested
    rw [advance, hother, if_neg Bool.false_ne_true] at hmem
    split at hmem
    · simp at hmem
    · simp only [List.mem_singleton, Piece.token.injEq] at hmem
      rw [hmem, hother]

/-- Inside a substitution a text in which all variables are replaced has no dollar signs. -/
theorem dollar_not_mem_render (hnested : nested = true)
    (hpending : pending d locals (scan text) = []) : dollar ∉ render d locals (scan text) := by
  obtain ⟨hliteral, htoken⟩ := isTemplate_iff.mp htemplate
  intro hmem
  rw [render] at hmem
  obtain ⟨piece, hpiece, hmem⟩ := List.mem_flatMap.mp hmem
  cases piece with
  | literal c => exact hliteral c hpiece (List.mem_singleton.mp hmem).symm
  | token name =>
    have hescape : ¬ isEscape name = true := by simp [htoken name hpiece hnested]
    rw [renderPiece, if_neg hescape] at hmem
    cases hlookup : lookup d locals name with
    | some t =>
      rw [hlookup] at hmem
      exact hknown name (mem_variableNames hpiece hescape) t hlookup hmem
    | none =>
      have hmem := mem_pending hpiece hescape hlookup
      rw [hpending] at hmem
      exact absurd hmem List.not_mem_nil

end Rendered

/-- Inside a substitution a substitution brings in no new tokens. -/
theorem isTokenized_substitute (htemplate : isTemplate true text = true)
    (hlocals : ∀ entry ∈ locals, entry.2.isTokenized true = true) (hd : d.IsPlain) :
    (substitute d locals text).isTokenized true = true := by
  have hknown : ∀ name ∈ variableNames (scan text), ∀ t,
      lookup d locals name = some t → dollar ∉ t := fun _ _ _ => dollar_not_mem_lookup hd hlocals
  obtain ⟨hpending, heq⟩ | ⟨hpending, -, heq⟩ | ⟨hpending, -, heq⟩ :=
    substitute_cases d locals text
  all_goals rw [heq]
  · exact Value.isTokenized_string.mpr (dollar_not_mem_render htemplate hknown rfl hpending)
  · exact Value.isTokenized_sub.mpr (isTemplate_render htemplate hknown hpending)
  · have hcarried : (Value.map (carried d locals (scan text))).isTokenized true = true :=
      Value.isTokenized_map_of_entries fun entry hentry =>
        hlocals entry (List.mem_of_mem_filter hentry)
    exact Value.isTokenized_sub.mpr
      ⟨isTemplate_render htemplate hknown hpending, by simpa using hcarried⟩

end Substitution

/-! ### Evaluation -/

namespace Intrinsic

open Substitution (scan variableNames)

/-- The parts of an attribute's name have no dollar signs if the argument has none. -/
theorem dollar_not_mem_attributeTarget {argument : Value} {resource attr : Text}
    (h : argument.isTokenized true = true)
    (htarget : attributeTarget argument = .ok (resource, attr)) :
    dollar ∉ resource ∧ dollar ∉ attr := by
  cases argument with
  | list items =>
    obtain ⟨part, rest, rfl, rfl⟩ := attributeTarget_list_eq_ok_iff.mp htarget
    rw [Value.isTokenized_list, List.forall_mem_map] at h
    have hclean : ∀ t ∈ resource :: part :: rest, dollar ∉ t :=
      fun t ht => Value.isTokenized_string.mp (h t ht)
    rw [List.forall_mem_cons] at hclean
    exact ⟨hclean.1, Text.not_mem_join (by decide) hclean.2⟩
  | string text =>
    obtain ⟨htext, -⟩ := attributeTarget_string_eq_ok_iff.mp htarget
    rw [Value.isTokenized_string, htext, List.mem_append, List.mem_cons] at h
    exact ⟨fun hmem => h (.inl hmem), fun hmem => h (.inr (.inr hmem))⟩
  | null | bool | int | double | map => cases htarget

namespace Dispatch

/-- Somewhere in a value, but not inside a call that is left to the deployment, a call that is not
evaluated yet is taken for a map of local variables: the argument of a substitution evaluates to a
text and a map in which a name is that of a function.  This matters if the text has a variable that
is called like the function, or if the substitution gives something else later than its text alone.
-/
inductive MistakesLocals (d d' : Deployment) : Value → Prop
  | here {argument : Value} {text : Text} {locals : List (Text × Value)}
      (hok : standard.reduceArgument d sub argument = .ok (.list [.string text, .map locals]))
      (hname : ∃ entry ∈ locals, isName entry.1 = true)
      (hlost : (∃ entry ∈ locals, entry.1 ∈ variableNames (scan text)) ∨
        standard.reduce d' (.call sub argument) ≠ standard.reduce d' (.call sub (.string text))) :
      MistakesLocals d d' (.call sub argument)
  | item {items : List Value} {v : Value} (hv : v ∈ items) (h : MistakesLocals d d' v) :
      MistakesLocals d d' (.list items)
  | entry {entries : List (Text × Value)} {entry : Text × Value} (hentry : entry ∈ entries)
      (hd : (Value.map entries).isDeferredCall = false) (h : MistakesLocals d d' entry.2) :
      MistakesLocals d d' (.map entries)

variable {d d' : Deployment}

/-- Local variables that are no mistake are no call, or the text does without them. -/
theorem isName_or_unasked {argument : Value} (h : ¬ MistakesLocals d d' (.call sub argument))
    {text : Text} {locals : List (Text × Value)}
    (hok : standard.reduceArgument d sub argument = .ok (.list [.string text, .map locals])) :
    (∀ entry ∈ locals, isName entry.1 = false) ∨
      (∀ entry ∈ locals, entry.1 ∉ variableNames (scan text)) ∧
        standard.reduce d' (.call sub argument) =
          standard.reduce d' (.call sub (.string text)) := by
  by_cases hname : ∃ entry ∈ locals, isName entry.1 = true
  · right
    constructor
    · exact fun entry hentry hasked => h (.here hok hname (.inl ⟨entry, hentry, hasked⟩))
    · by_contra hlost
      exact h (.here hok hname (.inr hlost))
  · left
    intro entry hentry
    exact Bool.eq_false_iff.mpr fun hentryName => hname ⟨entry, hentry, hentryName⟩

/-- A value stays tokenized when it is evaluated. -/
def KeepsTokens (d : Deployment) (v : Value) : Prop :=
  v.isTokenized true = true → ∀ outcome, standard.reduce d v = .ok outcome →
    outcome.kept.isTokenized true = true

theorem isTokenized_of_reduceEach {items : List Value} (h : ∀ v ∈ items, KeepsTokens d v)
    (htokenized : ∀ v ∈ items, v.isTokenized true = true) {outcomes : List Outcome}
    (hok : standard.reduceEach d items = .ok outcomes) :
    (∀ outcome ∈ outcomes, outcome.kept.isTokenized true = true) ∧
      ∀ v ∈ outcomes.flatMap Outcome.item, v.isTokenized true = true := by
  have houtcomes : ∀ outcome ∈ outcomes, outcome.kept.isTokenized true = true :=
    forall_mem_of_reduceEach (fun v hv => h v hv (htokenized v hv)) hok
  exact ⟨houtcomes, fun v hv => houtcomes _ (Outcome.mem_items.mp hv)⟩

theorem isTokenized_of_reduceArgument {argument : Value} (h : KeepsTokens d argument)
    (hitems : ∀ items, argument = .list items → ∀ v ∈ items, KeepsTokens d v)
    (htokenized : argument.isTokenized true = true) {function : Text} {evaluated : Value}
    (hok : standard.reduceArgument d function argument = .ok evaluated) :
    evaluated.isTokenized true = true := by
  cases argument with
  | list items =>
    obtain ⟨outcomes, heach, rfl⟩ := reduceArgument_list_eq_ok.mp hok
    obtain ⟨houtcomes, hvalues⟩ := isTokenized_of_reduceEach (hitems items rfl)
      (Value.isTokenized_list.mp htokenized) heach
    rw [Outcome.gathered, Value.isTokenized_list]
    split
    · exact List.forall_mem_map.mpr houtcomes
    · exact hvalues
  | null | bool | int | double | string | map =>
    obtain ⟨outcome, hreduce, rfl⟩ := (reduceArgument_eq_ok (by simp)).mp hok
    exact h htokenized outcome hreduce

/-- The argument of a substitution stays one when it is evaluated. -/
theorem isSubArgument_of_reduceArgument {nested : Bool} {argument : Value}
    (h : KeepsTokens d argument)
    (hitems : ∀ items, argument = .list items → ∀ v ∈ items, KeepsTokens d v)
    (hargument : Value.IsSubArgument nested argument) {evaluated : Value}
    (hok : standard.reduceArgument d sub argument = .ok evaluated) :
    Value.IsSubArgument nested evaluated := by
  unfold Value.IsSubArgument at hargument
  split at hargument
  · next text =>
    obtain ⟨outcome, hreduce, rfl⟩ := (reduceArgument_eq_ok (by simp)).mp hok
    rw [reduce_atom rfl] at hreduce
    exact Except.ok.inj hreduce ▸ hargument
  · next text rest =>
    obtain ⟨outcomes, heach, rfl⟩ := reduceArgument_list_eq_ok.mp hok
    obtain ⟨outcome, others, hfirst, hrest, rfl⟩ := reduceEach_cons_eq_ok.mp heach
    rw [reduce_atom rfl] at hfirst
    obtain rfl := Except.ok.inj hfirst
    rw [Outcome.gathered_of_ne (by decide), List.flatMap_cons]
    exact ⟨hargument.1, (isTokenized_of_reduceEach
      (fun v hv => hitems _ rfl v (List.mem_cons_of_mem _ hv)) hargument.2 hrest).2⟩
  · exact Value.isSubArgument_of_isTokenized
      (isTokenized_of_reduceArgument h hitems hargument hok)

/-- What a call gives is tokenized if the call is, unless a call is taken for local variables. -/
theorem isTokenized_of_invoked (hd : d.IsPlain) {function : Text} {argument : Value}
    {outcome : Outcome} (h : Invoked d function argument outcome)
    (htokenized : (Value.call function argument).isTokenized true = true)
    (hlocals : ∀ text locals, function = sub → argument = .list [.string text, .map locals] →
      (∀ entry ∈ locals, isName entry.1 = false) ∨
        ∀ entry ∈ locals, entry.1 ∉ variableNames (scan text)) :
    outcome.kept.isTokenized true = true := by
  cases h with
  | kept => exact htokenized
  | noValue => decide
  | pseudo _ h => exact Value.isTokenized_string.mpr (hd.pseudo h)
  | parameter _ _ h => exact Value.isTokenized_of_isDollarFree (hd.parameters h).2
  | attributeKnown _ h => exact Value.isTokenized_of_isDollarFree (hd.attributes h).2
  | attributeKept htarget =>
    rw [Value.isTokenized_call (by decide)] at htokenized
    obtain ⟨hresource, hattr⟩ := dollar_not_mem_attributeTarget htokenized htarget
    refine (Value.isTokenized_call (by decide)).mpr (Value.isTokenized_list.mpr ?_)
    simpa using ⟨Value.isTokenized_string.mpr hresource, Value.isTokenized_string.mpr hattr⟩
  | mapping h => exact Value.isTokenized_of_isDollarFree (hd.mappings h).2
  | branch h =>
    rw [Value.isTokenized_call (by decide), Value.isTokenized_list] at htokenized
    rw [Outcome.kept_ofBranch]
    exact htokenized _ (by split <;> simp)
  | condition => rfl
  | text t =>
    exact Substitution.isTokenized_substitute (Value.isTokenized_sub.mp htokenized) (by simp) hd
  | textWithLocals t locals =>
    obtain ⟨htemplate, hrest⟩ := Value.isTokenized_sub.mp htokenized
    rcases hlocals t locals rfl rfl with hnames | hunasked
    · have hlocals := (Value.isTokenized_plain (Value.call?_of_not_isName hnames)).mp
        (hrest _ List.mem_cons_self)
      exact Substitution.isTokenized_substitute htemplate hlocals hd
    · rw [Outcome.kept, Substitution.substitute_of_unasked hunasked]
      exact Substitution.isTokenized_substitute htemplate (by simp) hd

/-- **Evaluation brings in no tokens.**  Inside the argument of a substitution a value stays
tokenized when it is evaluated, unless a call is taken for local variables. -/
theorem isTokenized_reduce (hd : d.IsPlain) {v : Value} (hmistakes : ¬ MistakesLocals d d' v) :
    KeepsTokens d v := by
  induction v using Value.induction with
  | atom v hv =>
    intro htokenized outcome hok
    rw [reduce_atom hv] at hok
    exact Except.ok.inj hok ▸ htokenized
  | list items ih =>
    intro htokenized outcome hok
    obtain ⟨outcomes, heach, rfl⟩ := reduce_list_eq_ok.mp hok
    exact Value.isTokenized_list.mpr (isTokenized_of_reduceEach
      (fun v hv => ih v hv fun h => hmistakes (.item hv h))
      (Value.isTokenized_list.mp htokenized) heach).2
  | plain entries hcall ih =>
    intro htokenized outcome hok
    obtain ⟨outcomes, hnamed, rfl⟩ := (reduce_plain_eq_ok hcall).mp hok
    have hvalues := (Value.isTokenized_plain hcall).mp htokenized
    have houtcomes : ∀ named ∈ outcomes, named.2.kept.isTokenized true = true :=
      forall_mem_of_reduceNamed (fun entry hentry => ih entry hentry
        (fun h => hmistakes (.entry hentry (Value.isDeferredCall_of_plain hcall) h))
        (hvalues entry hentry)) hnamed
    exact Value.isTokenized_map_of_entries fun entry hentry =>
      houtcomes _ (Outcome.mem_entries.mp hentry)
  | call function argument hname ih ihs =>
    intro htokenized outcome hok
    cases hdeferred : isDeferred function with
    | true =>
      rw [reduce_deferred hname hdeferred] at hok
      exact Except.ok.inj hok ▸ htokenized
    | false =>
      have hargument : KeepsTokens d argument := ih fun h =>
        hmistakes (.entry List.mem_cons_self hdeferred h)
      have hitems : ∀ items, argument = .list items → ∀ v ∈ items, KeepsTokens d v := by
        rintro items rfl v hv
        exact ihs items rfl v hv fun h =>
          hmistakes (.entry List.mem_cons_self hdeferred (.item hv h))
      obtain ⟨evaluated, hevaluated, hinvoke⟩ := (reduce_call_eq_ok hname hdeferred).mp hok
      refine isTokenized_of_invoked hd (invoked_of_invoke hinvoke) ?_ ?_
      · by_cases hsub : function = sub
        · subst hsub
          exact Value.isTokenized_sub.mpr (isSubArgument_of_reduceArgument hargument hitems
            (Value.isTokenized_sub.mp htokenized) hevaluated)
        · rw [Value.isTokenized_call hsub] at htokenized ⊢
          exact isTokenized_of_reduceArgument hargument hitems htokenized hevaluated
      · rintro text locals rfl rfl
        exact (isName_or_unasked hmistakes hevaluated).imp_right And.left

end Dispatch

end Intrinsic

end CloudTemplate
