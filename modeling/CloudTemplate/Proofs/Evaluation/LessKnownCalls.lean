import Mathlib.Data.List.Forall2
import CloudTemplate.Proofs.Evaluation.StagedCalls

/-!
# Calls when less is known

A call may be kept as long as it is not known what its value depends on.  So what a value gives when
less is known is `Below` what it gives when more is known: an atom is there already, a list is a
list, and anything may come in the place of a map, which may be a call that is kept.

Functions that look at their argument want it to have a certain shape.  `Dispatch.ArgumentBelow`
says what has to be the same of two evaluated arguments for a call that succeeds with one of them to
succeed with the other (`Dispatch.invoke_below`).
-/

namespace CloudTemplate

open Substitution (LocalsGrow substitute)

/-! ### What comes of a value when less is known -/

/-- What a value gives when less is known, beside what it gives when more is known: what is an atom
is one already, a list is a list, and a map may be a call that gives anything. -/
inductive Outcome.Below : Outcome → Outcome → Prop
  | noValue : Below .noValue .noValue
  | atom {v : Value} (h : v.isAtom = true) : Below (.value v) (.value v)
  | list (items later : List Value) : Below (.value (.list items)) (.value (.list later))
  | map {entries : List (Text × Value)} {later : Outcome}
      (h : Value.map entries = .noValueRef → later.kept = .noValueRef) :
      Below (.value (.map entries)) later

namespace Outcome

variable {outcome later : Outcome}

theorem Below.refl : (outcome : Outcome) → outcome.Below outcome
  | .noValue => .noValue
  | .value (.list items) => .list items items
  | .value (.map _) => .map id
  | .value .null | .value (.bool _) | .value (.int _) | .value (.double _) | .value (.string _) =>
    .atom rfl

/-- Anything may come in the place of a call that is kept. -/
theorem below_call {function : Text} {argument : Value}
    (h : (Value.call function argument).isNoValueRef = false) :
    Below (.value (.call function argument)) later :=
  .map fun hcall => by
    rw [Value.call, hcall] at h
    cases h

theorem Below.value_kept (h : outcome.Below later) :
    Below (.value outcome.kept) (.value later.kept) := by
  cases h with
  | noValue => exact .refl _
  | atom h => exact .atom h
  | list items later => exact .list items later
  | map h => exact .map h

/-- The same comes of the branches between which a conditional decides. -/
theorem Below.ofBranch {v w : Value} (h : Below (.value v) (.value w)) :
    (Outcome.ofBranch v).Below (Outcome.ofBranch w) := by
  cases h with
  | atom h => exact .refl _
  | list items later => exact .list items later
  | @map entries _ h =>
    by_cases hmissing : Value.map entries = .noValueRef
    · rw [hmissing, show w = .noValueRef from h hmissing]
      exact .refl _
    · have href : (Value.map entries).isNoValueRef = false :=
        Bool.eq_false_iff.mpr fun href => hmissing (Value.isNoValueRef_iff.mp href)
      rw [Outcome.ofBranch, href, if_neg Bool.false_ne_true]
      exact .map fun hcall => absurd hcall hmissing

end Outcome

/-- One value beside another that takes its place when more is known. -/
def Value.Below (v w : Value) : Prop :=
  Outcome.Below (.value v) (.value w)

namespace Outcome

/-- Two outcomes without a value, or with values in a relation. -/
inductive Lifted (R : Value → Value → Prop) : Outcome → Outcome → Prop
  | noValue : Lifted R .noValue .noValue
  | value {v w : Value} (h : R v w) : Lifted R (.value v) (.value w)

theorem Below.lifted {outcome later : Outcome} (h : outcome.Below later)
    (hmissing : later = .noValue → outcome = .noValue) : Lifted Value.Below outcome later := by
  cases h with
  | noValue => exact .noValue
  | atom h => exact .value (.atom h)
  | list items later => exact .value (.list items later)
  | map h =>
    cases later with
    | noValue => nomatch hmissing rfl
    | value w => exact .value (.map h)

/-- Items that have a value both times are beside one another in what is left of the lists. -/
theorem forall₂_items {R : Value → Value → Prop} {outcomes laters : List Outcome}
    (h : List.Forall₂ (Lifted R) outcomes laters) :
    List.Forall₂ R (outcomes.flatMap item) (laters.flatMap item) := by
  induction h with
  | nil => exact .nil
  | cons hfirst _ ih =>
    cases hfirst with
    | noValue => exact ih
    | value hvalue => exact .cons hvalue ih

/-- Named outcomes are below others if they have the same names and each is below the other. -/
def NamedBelow (outcomes laters : List (Text × Outcome)) : Prop :=
  List.Forall₂ (fun named later => named.1 = later.1 ∧ named.2.Below later.2) outcomes laters

/-- Local variables lose none of their texts when more is known. -/
theorem NamedBelow.localsGrow {outcomes laters : List (Text × Outcome)}
    (h : NamedBelow outcomes laters) : LocalsGrow (entries outcomes) (entries laters) := by
  induction h with
  | nil => exact ⟨id, fun hsome _ => hsome⟩
  | @cons named later _ _ hfirst _ ih =>
    obtain ⟨key, outcome⟩ := named
    obtain ⟨_, outcome'⟩ := later
    obtain ⟨rfl, hbelow⟩ := hfirst
    rw [entries_cons, entries_cons]
    constructor
    · intro name hnone
      cases hbelow with
      | noValue => exact ih.absent hnone
      | atom | list | map =>
        rw [entry, List.singleton_append, Fields.get?_cons] at hnone
        split at hnone
        · cases hnone
        · next hkey => rw [get?_entry_append _ hkey, ih.absent hnone]
    · intro name v t hsome ht
      by_cases hkey : key = name
      · subst hkey
        cases hbelow with
        | noValue => exact ih.scalar hsome ht
        | atom =>
          rw [entry, List.singleton_append, Fields.get?_cons, if_pos rfl] at hsome ⊢
          exact hsome
        | list | map =>
          rw [entry, List.singleton_append, Fields.get?_cons, if_pos rfl] at hsome
          obtain rfl := Option.some.inj hsome
          cases ht
      · rw [get?_entry_append _ hkey] at hsome ⊢
        exact ih.scalar hsome ht

/-- Entries that are atoms are known already. -/
theorem NamedBelow.entries_eq {outcomes laters : List (Text × Outcome)}
    (h : NamedBelow outcomes laters)
    (hatoms : ∀ entry ∈ entries outcomes, entry.2.isAtom = true) :
    entries laters = entries outcomes := by
  induction h with
  | nil => rfl
  | @cons named later _ _ hfirst _ ih =>
    obtain ⟨key, outcome⟩ := named
    obtain ⟨_, outcome'⟩ := later
    obtain ⟨rfl, hbelow⟩ := hfirst
    rw [entries_cons] at hatoms ⊢
    rw [entries_cons, ih fun entry hentry => hatoms entry (List.mem_append_right _ hentry)]
    cases hbelow with
    | noValue | atom => rfl
    | list | map => nomatch hatoms _ (List.mem_append_left _ List.mem_cons_self)

end Outcome

namespace Intrinsic

open Outcome (Below)

variable {d d' : Deployment} {argument : Value} {outcome later : Outcome}

theorem evalRef_below (hd : d.GrowsTo d') (h : evalRef d' argument = .ok later) :
    ∃ outcome, evalRef d argument = .ok outcome ∧ outcome.Below later := by
  cases argument with
  | string name =>
    by_cases hname : name = Pseudo.noValue
    · rw [evalRef, if_pos hname] at h ⊢
      exact ⟨later, h, .refl later⟩
    · rw [evalRef, if_neg hname, hd.pseudo] at h
      rw [evalRef, if_neg hname]
      cases hpseudo : d.pseudo.get? name with
      | some t =>
        rw [hpseudo] at h
        exact ⟨later, h, .refl later⟩
      | none =>
        rw [hpseudo] at h
        cases hparameter : d.parameters.get? name with
        | some v =>
          rw [hd.parameters hparameter] at h
          exact ⟨later, h, .refl later⟩
        | none =>
          refine ⟨_, rfl, Outcome.below_call ?_⟩
          simp only [Value.call, Value.isNoValueRef, decide_true, Bool.true_and]
          exact decide_eq_false hname
  | null | bool | int | double | list | map => cases h

theorem evalCondition_below (hd : d.GrowsTo d') (h : evalCondition d' argument = .ok later) :
    ∃ outcome, evalCondition d argument = .ok outcome ∧ outcome.Below later := by
  cases argument with
  | string name =>
    rw [evalCondition] at h ⊢
    cases hcondition : d.conditions.get? name with
    | some b =>
      rw [hd.conditions hcondition] at h
      exact ⟨later, h, .refl later⟩
    | none =>
      exact ⟨_, rfl, Outcome.below_call (isNoValueRef_call_of_ne (by decide) _)⟩
  | null | bool | int | double | list | map => cases h

theorem evalGetAtt_below (hd : d.GrowsTo d')
    (hdeclared : ∀ name, d'.declaresResource name = true → d.declaresResource name = true)
    (h : evalGetAtt d' argument = .ok later) :
    ∃ outcome, evalGetAtt d argument = .ok outcome ∧ outcome.Below later := by
  have hlists : d'.listsResources = d.listsResources := by
    rw [Deployment.listsResources, Deployment.listsResources, hd.template]
  unfold evalGetAtt at h ⊢
  obtain ⟨⟨resource, attr⟩, htarget, hfound⟩ := bind_eq_ok.mp h
  rw [htarget]
  change ∃ outcome, (if (d.listsResources && !d.declaresResource resource) = true then _ else _) =
    Except.ok outcome ∧ _
  dsimp only at hfound
  split at hfound
  · cases hfound
  · next hexists =>
    have hexists' : ¬ (d.listsResources && !d.declaresResource resource) = true := by
      rw [hlists] at hexists
      simp only [Bool.and_eq_true, Bool.not_eq_true', not_and, Bool.not_eq_false] at hexists ⊢
      exact fun hlisted => hdeclared resource (hexists hlisted)
    rw [if_neg hexists']
    cases hattribute : d.attribute? resource attr with
    | some v =>
      rw [hd.attributes hattribute] at hfound
      exact ⟨later, hfound, .refl later⟩
    | none => exact ⟨_, rfl, Outcome.below_call (isNoValueRef_call_of_ne (by decide) _)⟩

/-- A key of a mapping is known already, or it is none because a call stands in its place. -/
theorem mapKey_below {label : Text} {v w : Value} {key : Option Text} (h : v.Below w)
    (hkey : mapKey label w = .ok key) :
    ∃ known, mapKey label v = .ok known ∧ (known = none ∨ known = key) := by
  cases h with
  | atom => exact ⟨key, hkey, .inr rfl⟩
  | list => cases hkey
  | map => exact ⟨none, rfl, .inl rfl⟩

/-- A mapping is looked up once all keys are known. -/
theorem evalFindInMap_of_keys {mapping top second : Value} {name? topKey? secondKey? : Option Text}
    (hname : mapKey "MapName" mapping = .ok name?) (htop : mapKey "TopLevelKey" top = .ok topKey?)
    (hsecond : mapKey "SecondLevelKey" second = .ok secondKey?) :
    evalFindInMap d (.list [mapping, top, second]) =
      match name?, topKey?, secondKey? with
      | some name, some topKey, some secondKey => .value <$> findEntry d name topKey secondKey
      | _, _, _ => kept findInMap (.list [mapping, top, second]) := by
  have helements : elements 3 (.list [mapping, top, second]) = .ok [mapping, top, second] := rfl
  simp only [evalFindInMap, helements, hname, htop, hsecond, bind, Except.bind]
  rcases name? with _ | name <;> rcases topKey? with _ | topKey <;>
    rcases secondKey? with _ | secondKey <;> rfl

theorem evalFindInMap_below (hd : d.GrowsTo d') {items laters : List Value}
    (hitems : List.Forall₂ Value.Below items laters)
    (h : evalFindInMap d' (.list laters) = .ok later) :
    ∃ outcome, evalFindInMap d (.list items) = .ok outcome ∧ outcome.Below later := by
  have hkeys := h
  unfold evalFindInMap at hkeys
  obtain ⟨parts, helements, hkeys⟩ := bind_eq_ok.mp hkeys
  obtain ⟨heq, hlength⟩ := elements_eq_ok helements
  obtain rfl := Value.list.inj heq
  obtain ⟨mapping', top', second', rfl⟩ := List.length_eq_three.mp hlength
  obtain ⟨name?, hname, hkeys⟩ := bind_eq_ok.mp hkeys
  obtain ⟨topKey?, htop, hkeys⟩ := bind_eq_ok.mp hkeys
  obtain ⟨secondKey?, hsecond, -⟩ := bind_eq_ok.mp hkeys
  rcases hitems with _ | ⟨hmapping, _ | ⟨htop', _ | ⟨hsecond', _ | _⟩⟩⟩
  obtain ⟨known, hknown, hsame⟩ := mapKey_below hmapping hname
  obtain ⟨knownTop, hknownTop, hsameTop⟩ := mapKey_below htop' htop
  obtain ⟨knownSecond, hknownSecond, hsameSecond⟩ := mapKey_below hsecond' hsecond
  rw [evalFindInMap_of_keys hname htop hsecond] at h
  rw [evalFindInMap_of_keys hknown hknownTop hknownSecond]
  split
  · next name topKey secondKey _ _ _ =>
    obtain rfl : some name = name? := hsame.resolve_left (by simp)
    obtain rfl : some topKey = topKey? := hsameTop.resolve_left (by simp)
    obtain rfl : some secondKey = secondKey? := hsameSecond.resolve_left (by simp)
    rw [← hd.findEntry_eq]
    exact ⟨later, h, .refl later⟩
  · exact ⟨_, rfl, Outcome.below_call (isNoValueRef_call_of_ne (by decide) _)⟩

/-- A conditional is decided in the same way, or not yet. -/
theorem evalIf_below (hd : d.GrowsTo d') {items laters : List Value}
    (hitems : List.Forall₂ Value.Below items laters) (hfirst : items.head? = laters.head?)
    (h : evalIf d' (.list laters) = .ok later) :
    ∃ outcome, evalIf d (.list items) = .ok outcome ∧ outcome.Below later := by
  have hdecided := h
  unfold evalIf at hdecided
  obtain ⟨parts, helements, hdecided⟩ := bind_eq_ok.mp hdecided
  obtain ⟨heq, hlength⟩ := elements_eq_ok helements
  obtain rfl := Value.list.inj heq
  obtain ⟨first, ifTrue', ifFalse', rfl⟩ := List.length_eq_three.mp hlength
  rcases hitems with _ | ⟨-, _ | ⟨htrue, _ | ⟨hfalse, _ | _⟩⟩⟩
  obtain rfl := (Option.some.inj hfirst).symm
  cases first with
  | string name =>
    cases hcondition : d.conditions.get? name with
    | none =>
      exact ⟨_, evalIf_of_unknown hcondition _ _,
        Outcome.below_call (isNoValueRef_call_of_ne (by decide) _)⟩
    | some b =>
      rw [evalIf_of_known (hd.conditions hcondition)] at h
      refine ⟨_, evalIf_of_known hcondition _ _, ?_⟩
      rw [← Except.ok.inj h]
      cases b with
      | true => exact htrue.ofBranch
      | false => exact hfalse.ofBranch
  | null | bool | int | double | list | map => cases hdecided

/-- A text is the same as soon as all its variables are known, and remains a call until then. -/
theorem substitute_below (hd : d.GrowsTo d') {locals locals' : Fields Value}
    (hlocals : LocalsGrow locals locals') (text : Text) :
    Value.Below (substitute d locals text) (substitute d' locals' text) := by
  obtain ⟨hpending, -⟩ | ⟨-, -, heq⟩ | ⟨-, -, heq⟩ :=
    Substitution.substitute_cases d locals text
  · rw [Substitution.substitute_of_pending_eq_nil hd hlocals hpending]
    exact .refl _
  all_goals
    rw [heq]
    exact Outcome.below_call (isNoValueRef_call_of_ne (by decide) _)

theorem evalSub_below (hd : d.GrowsTo d') (h : evalSub d' argument = .ok later) :
    ∃ outcome, evalSub d argument = .ok outcome ∧ outcome.Below later := by
  have hrefl : ∀ locals : Fields Value, LocalsGrow locals locals := fun locals =>
    ⟨id, fun hsome _ => hsome⟩
  unfold evalSub at h
  split at h
  · exact ⟨_, rfl, Except.ok.inj h ▸ substitute_below hd (hrefl []) _⟩
  · exact ⟨_, rfl, Except.ok.inj h ▸ substitute_below hd (hrefl _) _⟩
  all_goals nomatch h

namespace Dispatch

/-! ### Invocations -/

/-- The functions that want an argument of a certain shape. -/
def demanding : List Text :=
  [ref, condition, getAtt, findInMap, join, ifElse, select, split, sub]

/-- An evaluated argument when less is known, beside the one when more is known, as far as the
function looks at it. -/
inductive ArgumentBelow : Text → Value → Value → Prop
  | same (function : Text) (argument : Value) : ArgumentBelow function argument argument
  | unread {function : Text} (h : function ∉ demanding) (argument argument' : Value) :
      ArgumentBelow function argument argument'
  | parts {function : Text} (hf : function ∈ [findInMap, join, ifElse, select, split])
      {items laters : List Value} (hitems : List.Forall₂ Value.Below items laters)
      (hfirst : function ∈ [join, ifElse, split] → items.head? = laters.head?) :
      ArgumentBelow function (.list items) (.list laters)
  | locals (text : Text) {locals locals' : Fields Value} (h : LocalsGrow locals locals') :
      ArgumentBelow sub (.list [.string text, .map locals]) (.list [.string text, .map locals'])

section Invocations

variable {function : Text} (hd : d.GrowsTo d')
  (hdeclared : ∀ name, d'.declaresResource name = true → d.declaresResource name = true)

include hd hdeclared in
theorem eval_below {handler : Handler} (h : handler.eval d' argument = .ok later) :
    ∃ outcome, handler.eval d argument = .ok outcome ∧ outcome.Below later := by
  have hrefl : ∀ items : List Value, List.Forall₂ Value.Below items items := fun items =>
    List.forall₂_same.mpr fun _ _ => .refl _
  cases handler with
  | ref => exact evalRef_below hd h
  | condition => exact evalCondition_below hd h
  | getAtt => exact evalGetAtt_below hd hdeclared h
  | findInMap =>
    cases argument with
    | list items => exact evalFindInMap_below hd (hrefl items) h
    | null | bool | int | double | string | map => cases h
  | ifElse =>
    cases argument with
    | list items => exact evalIf_below hd (hrefl items) rfl h
    | null | bool | int | double | string | map => cases h
  | sub => exact evalSub_below hd h
  | join | eagerJoin | select | split | base64 | getAZs | importValue =>
    exact ⟨later, h, .refl later⟩

/-- A function that does not look at its argument keeps its calls. -/
theorem invoke_of_not_demanding (hf : function ∉ demanding) (d : Deployment) (argument : Value) :
    standard.invoke d function argument = .ok (.value (.call function argument)) := by
  cases hhandler : standard.handler? function with
  | none => rw [invoke, hhandler]
  | some handler =>
    obtain ⟨rfl, hstandard⟩ := function_of_handler?_standard hhandler
    rw [invoke_standard hstandard]
    cases handler with
    | base64 | getAZs | importValue => rfl
    | eagerJoin => exact absurd rfl hstandard
    | ref | sub | getAtt | findInMap | join | ifElse | select | split | condition =>
      exact absurd (by decide) hf

/-- A call of a function that wants a certain number of parts is kept, whatever these are. -/
theorem exists_kept_below (hf : function ≠ ref) (argument : Value) :
    ∃ outcome, kept function argument = .ok outcome ∧ outcome.Below later :=
  ⟨_, rfl, Outcome.below_call (isNoValueRef_call_of_ne hf argument)⟩

theorem evalSelect_below {items laters : List Value} (hlength : items.length = laters.length)
    (h : evalSelect (.list laters) = .ok later) :
    ∃ outcome, evalSelect (.list items) = .ok outcome ∧ outcome.Below later := by
  obtain ⟨parts, helements, -⟩ := bind_eq_ok.mp h
  have hlater := (elements_eq_ok helements).2
  obtain rfl := Value.list.inj (elements_eq_ok helements).1
  rw [evalSelect, elements, if_pos (hlength.trans hlater)]
  exact exists_kept_below (by decide) _

theorem evalJoin_below {items laters : List Value} (hitems : List.Forall₂ Value.Below items laters)
    (hfirst : items.head? = laters.head?) (h : evalJoin (.list laters) = .ok later) :
    ∃ outcome, evalJoin (.list items) = .ok outcome ∧ outcome.Below later := by
  obtain ⟨⟨delimiter, joined⟩, hparts, -⟩ := bind_eq_ok.mp h
  obtain rfl := Value.list.inj (eq_list_of_joinParts hparts)
  rcases hitems with _ | ⟨-, _ | ⟨hjoined, _ | _⟩⟩
  obtain rfl := Option.some.inj hfirst
  cases hjoined with
  | atom hatom =>
    cases joined with
    | null | bool | int | double | string => cases hparts
    | list | map => cases hatom
  | list | map => exact exists_kept_below (by decide) _

theorem evalSplit_below {items laters : List Value}
    (hitems : List.Forall₂ Value.Below items laters) (hfirst : items.head? = laters.head?)
    (h : evalSplit (.list laters) = .ok later) :
    ∃ outcome, evalSplit (.list items) = .ok outcome ∧ outcome.Below later := by
  obtain ⟨parts, helements, hdelimiter⟩ := bind_eq_ok.mp h
  have hlength := (elements_eq_ok helements).2
  obtain rfl := Value.list.inj (elements_eq_ok helements).1
  obtain ⟨delimiter, text, rfl⟩ := List.length_eq_two.mp hlength
  rcases hitems with _ | ⟨-, _ | ⟨-, _ | _⟩⟩
  obtain rfl := Option.some.inj hfirst
  rename_i known _
  cases known with
  | string s => exact exists_kept_below (by decide) _
  | null | bool | int | double | list | map => cases hdelimiter

include hd in
theorem invoke_below_of_parts (hf : function ∈ [findInMap, join, ifElse, select, split])
    {items laters : List Value} (hitems : List.Forall₂ Value.Below items laters)
    (hfirst : function ∈ [join, ifElse, split] → items.head? = laters.head?)
    (h : standard.invoke d' function (.list laters) = .ok later) :
    ∃ outcome, standard.invoke d function (.list items) = .ok outcome ∧ outcome.Below later := by
  have hinvoke : ∀ (handler : Handler) (hstandard : handler ≠ .eagerJoin),
      (∃ outcome, handler.eval d (.list items) = .ok outcome ∧ outcome.Below later) →
        ∃ outcome, standard.invoke d handler.function (.list items) = .ok outcome ∧
          outcome.Below later := fun handler hstandard ⟨outcome, heval, hbelow⟩ =>
    ⟨outcome, invoke_of_eval handler hstandard heval, hbelow⟩
  simp only [List.mem_cons, List.not_mem_nil, or_false] at hf
  rcases hf with rfl | rfl | rfl | rfl | rfl
  · exact hinvoke .findInMap (by decide)
      (evalFindInMap_below hd hitems (eval_of_invoke .findInMap (by decide) h))
  · exact hinvoke .join (by decide)
      (evalJoin_below hitems (hfirst (by decide)) (eval_of_invoke .join (by decide) h))
  · exact hinvoke .ifElse (by decide)
      (evalIf_below hd hitems (hfirst (by decide)) (eval_of_invoke .ifElse (by decide) h))
  · exact hinvoke .select (by decide)
      (evalSelect_below hitems.length_eq (eval_of_invoke .select (by decide) h))
  · exact hinvoke .split (by decide)
      (evalSplit_below hitems (hfirst (by decide)) (eval_of_invoke .split (by decide) h))

include hd hdeclared in
/-- **A call that succeeds when more is known succeeds now.** -/
theorem invoke_below {argument' : Value} (hargument : ArgumentBelow function argument argument')
    (h : standard.invoke d' function argument' = .ok later) :
    ∃ outcome, standard.invoke d function argument = .ok outcome ∧ outcome.Below later := by
  cases hargument with
  | same =>
    cases hhandler : standard.handler? function with
    | none =>
      rw [invoke, hhandler] at h ⊢
      exact ⟨later, h, .refl later⟩
    | some handler =>
      obtain ⟨rfl, hstandard⟩ := function_of_handler?_standard hhandler
      obtain ⟨outcome, heval, hbelow⟩ :=
        eval_below hd hdeclared (eval_of_invoke handler hstandard h)
      exact ⟨outcome, invoke_of_eval handler hstandard heval, hbelow⟩
  | unread hf =>
    have href : function ≠ ref := by
      rintro rfl
      exact hf (by decide)
    exact ⟨_, invoke_of_not_demanding hf d argument,
      Outcome.below_call (isNoValueRef_call_of_ne href argument)⟩
  | parts hf hitems hfirst => exact invoke_below_of_parts hd hf hitems hfirst h
  | locals text hlocals =>
    refine ⟨_, invoke_of_eval .sub (by decide) rfl, ?_⟩
    have heval := eval_of_invoke .sub (by decide) h
    exact Except.ok.inj heval ▸ substitute_below hd hlocals text

end Invocations

end Dispatch

end Intrinsic

end CloudTemplate
