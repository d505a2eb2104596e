import CloudTemplate.Intrinsic.Dispatch
import CloudTemplate.Recorded

/-!
# What the call of a handler can give

`Invoked` lists, for the standard table, all ways in which the call of a function with an evaluated
argument succeeds: the call is kept, or something that is known takes its place.  Facts about every
function are proved by going through this list, and no later proof opens a handler for that.
-/

namespace CloudTemplate

/-- What a conditional gives whose branch is selected. -/
def Outcome.ofBranch (branch : Value) : Outcome :=
  if branch.isNoValueRef then .noValue else .value branch

namespace Intrinsic

open Substitution (substitute)

/-- The ways in which a call with an evaluated argument succeeds. -/
inductive Invoked (d : Deployment) : Text → Value → Outcome → Prop
  | kept {function : Text} {argument : Value}
      (h : (Value.call function argument).isNoValueRef = false) :
      Invoked d function argument (.value (.call function argument))
  | noValue : Invoked d ref (.string Intrinsic.noValue) .noValue
  | pseudo {name t : Text} (hname : name ≠ Pseudo.noValue) (h : d.pseudo.get? name = some t) :
      Invoked d ref (.string name) (.value (.string t))
  | parameter {name : Text} {v : Value} (hname : name ≠ Pseudo.noValue)
      (hpseudo : d.pseudo.get? name = none) (h : d.parameters.get? name = some v) :
      Invoked d ref (.string name) (.value v)
  | attributeKnown {argument v : Value} {resource attr : Text}
      (htarget : attributeTarget argument = .ok (resource, attr))
      (h : d.attribute? resource attr = some v) : Invoked d getAtt argument (.value v)
  | attributeKept {argument : Value} {resource attr : Text}
      (htarget : attributeTarget argument = .ok (resource, attr)) :
      Invoked d getAtt argument (.value (.call getAtt (.ofStrings [resource, attr])))
  | mapping {name topKey secondKey : Text} {v : Value}
      (h : findEntry d name topKey secondKey = .ok v) :
      Invoked d findInMap (.ofStrings [name, topKey, secondKey]) (.value v)
  | branch {name : Text} {b : Bool} {whenTrue whenFalse : Value}
      (h : d.conditions.get? name = some b) :
      Invoked d ifElse (.list [.string name, whenTrue, whenFalse])
        (.ofBranch (if b then whenTrue else whenFalse))
  | condition {name : Text} {b : Bool} (h : d.conditions.get? name = some b) :
      Invoked d Intrinsic.condition (.string name) (.value (.bool b))
  | text (t : Text) : Invoked d sub (.string t) (.value (substitute d [] t))
  | textWithLocals (t : Text) (locals : List (Text × Value)) :
      Invoked d sub (.list [.string t, .map locals]) (.value (substitute d locals t))

/-! ### Each handler -/

section Handlers

variable {d : Deployment} {argument : Value} {outcome : Outcome}

theorem elements_eq_ok {due : Nat} {items : List Value} (h : elements due argument = .ok items) :
    argument = .list items ∧ items.length = due := by
  unfold elements at h
  split at h
  · split at h
    · next hlength => exact Except.ok.inj h ▸ ⟨rfl, hlength⟩
    · cases h
  · cases h

/-- A call of another function than `Ref` does not stand for a missing value. -/
theorem isNoValueRef_call_of_ne {function : Text} (h : function ≠ ref) (argument : Value) :
    (Value.call function argument).isNoValueRef = false := by
  cases argument <;> simp [Value.call, Value.isNoValueRef, h]

theorem invoked_of_kept {function : Text} (hf : function ≠ ref)
    (h : Intrinsic.kept function argument = .ok outcome) : Invoked d function argument outcome :=
  Except.ok.inj h ▸ .kept (isNoValueRef_call_of_ne hf argument)

theorem invoked_of_evalRef (h : evalRef d argument = .ok outcome) :
    Invoked d ref argument outcome := by
  unfold evalRef at h
  split at h
  · next name =>
    split at h
    · next hname =>
      obtain rfl := Except.ok.inj h
      exact hname ▸ .noValue
    · next hname =>
      split at h
      · next t _ ht => exact Except.ok.inj h ▸ .pseudo hname ht
      · next v ht hv => exact Except.ok.inj h ▸ .parameter hname ht hv
      · refine Except.ok.inj h ▸ .kept ?_
        simp only [Value.call, Value.isNoValueRef, decide_true, Bool.true_and]
        exact decide_eq_false hname
  · nomatch h

theorem attributeParts_eq_ok_iff {items : List Value} {texts : List Text} :
    attributeParts items = .ok texts ↔ items = texts.map .string := by
  induction items generalizing texts with
  | nil => simp [attributeParts, eq_comm]
  | cons v rest ih =>
    cases v with
    | string s =>
      rw [attributeParts, bind_eq_ok]
      constructor
      · rintro ⟨others, hothers, htexts⟩
        obtain rfl := Except.ok.inj htexts
        rw [List.map_cons, ih.mp hothers]
      · intro h
        obtain ⟨t, others, rfl, ht, hothers⟩ := List.map_eq_cons_iff.mp h.symm
        obtain rfl := Value.string.inj ht
        exact ⟨others, ih.mpr hothers.symm, rfl⟩
    | null | bool | int | double | list | map => cases texts <;> simp [attributeParts]

/-- An array names an attribute if it is two or more strings. -/
theorem attributeTarget_list_eq_ok_iff {items : List Value} {resource attr : Text} :
    attributeTarget (.list items) = .ok (resource, attr) ↔
      ∃ part rest, items = (resource :: part :: rest).map .string ∧
        attr = Text.join "." (part :: rest) := by
  rw [attributeTarget]
  constructor
  · intro h
    split at h
    · cases h
    · next hlength =>
      obtain ⟨texts, htexts, htarget⟩ := bind_eq_ok.mp h
      obtain rfl := attributeParts_eq_ok_iff.mp htexts
      match texts, hlength, htarget with
      | [], hlength, _ | [_], hlength, _ => simp at hlength
      | first :: part :: rest, _, htarget =>
        obtain ⟨rfl, rfl⟩ := Prod.mk.inj (Except.ok.inj htarget)
        exact ⟨part, rest, rfl, rfl⟩
  · rintro ⟨part, rest, rfl, rfl⟩
    rw [if_neg (by simp), attributeParts_eq_ok_iff.mpr rfl]
    rfl

/-- A text names an attribute if there is something on both sides of its first dot. -/
theorem attributeTarget_string_eq_ok_iff {text resource attr : Text} :
    attributeTarget (.string text) = .ok (resource, attr) ↔
      text = resource ++ .char '.' :: attr ∧ .char '.' ∉ resource ∧ resource ≠ [] ∧ attr ≠ [] := by
  rw [attributeTarget]
  constructor
  · intro h
    split at h
    · next before after hcut =>
      have hdot := Text.separator_not_mem_before (.char '.') text
      rw [Text.before, hcut] at hdot
      split at h
      · cases h
      · next hne =>
        obtain ⟨rfl, rfl⟩ := Prod.mk.inj (Except.ok.inj h)
        simp only [Bool.or_eq_true, List.isEmpty_iff, not_or] at hne
        exact ⟨Text.append_of_cut hcut, hdot, hne⟩
    · cases h
  · rintro ⟨rfl, hdot, hresource, hattr⟩
    simp [Text.cut_append hdot, hresource, hattr]

theorem invoked_of_evalGetAtt (h : evalGetAtt d argument = .ok outcome) :
    Invoked d getAtt argument outcome := by
  unfold evalGetAtt at h
  obtain ⟨⟨resource, attr⟩, htarget, h⟩ := bind_eq_ok.mp h
  dsimp only at h
  split at h
  · nomatch h
  · split at h
    · next v hv => exact Except.ok.inj h ▸ .attributeKnown htarget hv
    · exact Except.ok.inj h ▸ .attributeKept htarget

theorem eq_string_of_mapKey {label key : Text} {v : Value} (h : mapKey label v = .ok (some key)) :
    v = .string key := by
  unfold mapKey at h
  split at h
  · exact congrArg Value.string (Option.some.inj (Except.ok.inj h))
  · nomatch h
  · nomatch h

theorem invoked_of_evalFindInMap (h : evalFindInMap d argument = .ok outcome) :
    Invoked d findInMap argument outcome := by
  unfold evalFindInMap at h
  obtain ⟨items, helements, h⟩ := bind_eq_ok.mp h
  obtain ⟨rfl, -⟩ := elements_eq_ok helements
  split at h
  · obtain ⟨name?, hname, h⟩ := bind_eq_ok.mp h
    obtain ⟨topKey?, htop, h⟩ := bind_eq_ok.mp h
    obtain ⟨secondKey?, hsecond, h⟩ := bind_eq_ok.mp h
    split at h
    · obtain ⟨v, hv, hdone⟩ := bind_eq_ok.mp h
      obtain rfl := eq_string_of_mapKey hname
      obtain rfl := eq_string_of_mapKey htop
      obtain rfl := eq_string_of_mapKey hsecond
      exact Except.ok.inj hdone ▸ .mapping hv
    · exact invoked_of_kept (by decide) h
  · nomatch h

/-- A conditional has three parts.  It is kept if the outcome of its condition is not known;
otherwise this selects a branch. -/
theorem evalIf_cases (h : evalIf d argument = .ok outcome) :
    ∃ name whenTrue whenFalse, argument = .list [.string name, whenTrue, whenFalse] ∧
      (d.conditions.get? name = none ∧ outcome = .value (.call ifElse argument) ∨
        ∃ b, d.conditions.get? name = some b ∧
          outcome = .ofBranch (if b then whenTrue else whenFalse)) := by
  unfold evalIf at h
  obtain ⟨items, helements, h⟩ := bind_eq_ok.mp h
  obtain ⟨rfl, -⟩ := elements_eq_ok helements
  split at h
  · refine ⟨_, _, _, rfl, ?_⟩
    split at h
    · next hunknown => exact .inl ⟨hunknown, (Except.ok.inj h).symm⟩
    · next b hb => exact .inr ⟨b, hb, (Except.ok.inj h).symm⟩
  · nomatch h
  · nomatch h

theorem evalIf_of_known {name : Text} {b : Bool} (h : d.conditions.get? name = some b)
    (whenTrue whenFalse : Value) :
    evalIf d (.list [.string name, whenTrue, whenFalse]) =
      .ok (.ofBranch (if b then whenTrue else whenFalse)) := by
  have helements : elements 3 (.list [.string name, whenTrue, whenFalse]) =
      .ok [.string name, whenTrue, whenFalse] := rfl
  unfold evalIf
  simp only [helements, bind, Except.bind, h]
  rfl

theorem evalIf_of_unknown {name : Text} (h : d.conditions.get? name = none)
    (whenTrue whenFalse : Value) :
    evalIf d (.list [.string name, whenTrue, whenFalse]) =
      Intrinsic.kept ifElse (.list [.string name, whenTrue, whenFalse]) := by
  have helements : elements 3 (.list [.string name, whenTrue, whenFalse]) =
      .ok [.string name, whenTrue, whenFalse] := rfl
  unfold evalIf
  simp only [helements, bind, Except.bind, h]

theorem invoked_of_evalIf (h : evalIf d argument = .ok outcome) :
    Invoked d ifElse argument outcome := by
  obtain ⟨name, whenTrue, whenFalse, rfl, ⟨-, rfl⟩ | ⟨b, hb, rfl⟩⟩ := evalIf_cases h
  · exact .kept (isNoValueRef_call_of_ne (by decide) _)
  · exact .branch hb

theorem invoked_of_evalCondition (h : evalCondition d argument = .ok outcome) :
    Invoked d Intrinsic.condition argument outcome := by
  unfold evalCondition at h
  split at h
  · split at h
    · next b hb => exact Except.ok.inj h ▸ .condition hb
    · exact invoked_of_kept (by decide) h
  · nomatch h

theorem invoked_of_evalSub (h : evalSub d argument = .ok outcome) :
    Invoked d sub argument outcome := by
  unfold evalSub at h
  split at h
  · exact Except.ok.inj h ▸ .text _
  · exact Except.ok.inj h ▸ .textWithLocals _ _
  all_goals nomatch h

theorem invoked_of_evalJoin (h : evalJoin argument = .ok outcome) :
    Invoked d join argument outcome := by
  obtain ⟨_, -, h⟩ := bind_eq_ok.mp h
  exact invoked_of_kept (by decide) h

theorem invoked_of_evalSelect (h : evalSelect argument = .ok outcome) :
    Invoked d select argument outcome := by
  obtain ⟨_, -, h⟩ := bind_eq_ok.mp h
  exact invoked_of_kept (by decide) h

theorem invoked_of_evalSplit (h : evalSplit argument = .ok outcome) :
    Invoked d split argument outcome := by
  unfold evalSplit at h
  obtain ⟨_, -, h⟩ := bind_eq_ok.mp h
  split at h
  · exact invoked_of_kept (by decide) h
  · nomatch h
  · nomatch h

/-- What a handler of the standard table gives is in the list. -/
theorem invoked_of_eval {handler : Handler} (hstandard : handler ≠ .eagerJoin)
    (h : handler.eval d argument = .ok outcome) : Invoked d handler.function argument outcome := by
  cases handler with
  | ref => exact invoked_of_evalRef h
  | sub => exact invoked_of_evalSub h
  | getAtt => exact invoked_of_evalGetAtt h
  | findInMap => exact invoked_of_evalFindInMap h
  | join => exact invoked_of_evalJoin h
  | ifElse => exact invoked_of_evalIf h
  | select => exact invoked_of_evalSelect h
  | base64 | getAZs | importValue => exact invoked_of_kept (by decide) h
  | split => exact invoked_of_evalSplit h
  | condition => exact invoked_of_evalCondition h
  | eagerJoin => exact absurd rfl hstandard

end Handlers

namespace Dispatch

/-- The standard table has each handler but one, under the name of its function. -/
theorem handler?_standard {handler : Handler} (h : handler ≠ .eagerJoin) :
    standard.handler? handler.function = some handler := by
  cases handler with
  | eagerJoin => exact absurd rfl h
  | _ => rfl

theorem function_of_handler?_standard {function : Text} {handler : Handler}
    (h : standard.handler? function = some handler) :
    function = handler.function ∧ handler ≠ .eagerJoin := by
  obtain ⟨other, hmem, heq⟩ := List.mem_map.mp (Fields.mem_of_get? h)
  obtain ⟨rfl, rfl⟩ := Prod.mk.inj heq
  refine ⟨rfl, ?_⟩
  rintro rfl
  simp at hmem

/-- A call goes to the handler of its function. -/
theorem invoke_of_handler? {table : Dispatch} {function : Text} {handler : Handler}
    (h : table.handler? function = some handler) (d : Deployment) (argument : Value) :
    table.invoke d function argument =
      (handler.eval d argument).mapError fun fault => { function := handler.function, fault } := by
  rw [invoke, h]
  dsimp only
  cases handler.eval d argument <;> rfl

theorem invoke_standard {handler : Handler} (h : handler ≠ .eagerJoin) (d : Deployment)
    (argument : Value) : standard.invoke d handler.function argument =
      (handler.eval d argument).mapError fun fault => { function := handler.function, fault } :=
  invoke_of_handler? (handler?_standard h) d argument

theorem invoke_of_eval (handler : Handler) (hstandard : handler ≠ .eagerJoin) {d : Deployment}
    {argument : Value} {outcome : Outcome} (h : handler.eval d argument = .ok outcome) :
    standard.invoke d handler.function argument = .ok outcome := by
  rw [invoke_standard hstandard, h]
  rfl

theorem eval_of_invoke (handler : Handler) (hstandard : handler ≠ .eagerJoin) {d : Deployment}
    {argument : Value} {outcome : Outcome}
    (h : standard.invoke d handler.function argument = .ok outcome) :
    handler.eval d argument = .ok outcome := by
  rwa [invoke_standard hstandard, mapError_eq_ok] at h

/-- **What an invocation can give.**  If the standard table evaluates a call with an evaluated
argument, this is in one of the ways in the list. -/
theorem invoked_of_invoke {d : Deployment} {function : Text} {argument : Value} {outcome : Outcome}
    (h : standard.invoke d function argument = .ok outcome) :
    Invoked d function argument outcome := by
  cases hhandler : standard.handler? function with
  | none =>
    rw [invoke, hhandler] at h
    refine Except.ok.inj h ▸ .kept (isNoValueRef_call_of_ne ?_ argument)
    rintro rfl
    nomatch hhandler
  | some handler =>
    obtain ⟨rfl, hstandard⟩ := function_of_handler?_standard hhandler
    exact invoked_of_eval hstandard (eval_of_invoke handler hstandard h)

/-! ### The table in which joins are carried out -/

theorem strings?_eq_some {items : List Value} {texts : List Text}
    (h : strings? items = some texts) : items = texts.map .string := by
  induction items generalizing texts with
  | nil => exact Option.some.inj h ▸ rfl
  | cons v rest ih =>
    cases v with
    | string s =>
      rw [strings?, Option.map_eq_some_iff] at h
      obtain ⟨others, hothers, rfl⟩ := h
      rw [ih hothers, List.map_cons]
    | null | bool | int | double | list | map => nomatch h

theorem eq_list_of_joinParts {argument items : Value} {delimiter : Text}
    (h : joinParts argument = .ok (delimiter, items)) :
    argument = .list [.string delimiter, items] := by
  unfold joinParts at h
  obtain ⟨parts, helements, hparts⟩ := bind_eq_ok.mp h
  obtain ⟨rfl, -⟩ := elements_eq_ok helements
  split at hparts
  · split at hparts
    · obtain ⟨rfl, rfl⟩ := Prod.mk.inj (Except.ok.inj hparts)
      rfl
    · obtain ⟨rfl, rfl⟩ := Prod.mk.inj (Except.ok.inj hparts)
      rfl
    · cases hparts
  · cases hparts
  · cases hparts

/-- A join is kept, or all its items are strings and it is carried out. -/
theorem evalEagerJoin_cases {d : Deployment} {argument : Value} {outcome : Outcome}
    (h : evalEagerJoin argument = .ok outcome) :
    Invoked d join argument outcome ∨
      ∃ delimiter texts, argument = .list [.string delimiter, .ofStrings texts] ∧
        outcome = .value (.string (Text.join delimiter texts)) := by
  unfold evalEagerJoin at h
  obtain ⟨⟨delimiter, items⟩, hparts, heval⟩ := bind_eq_ok.mp h
  have hkept : Intrinsic.kept join argument = .ok outcome → Invoked d join argument outcome :=
    invoked_of_kept (by decide)
  obtain rfl := eq_list_of_joinParts hparts
  split at heval
  · next heq =>
    obtain ⟨rfl, rfl⟩ := Prod.mk.inj heq
    split at heval
    · next texts htexts =>
      obtain rfl := strings?_eq_some htexts
      exact .inr ⟨_, texts, rfl, (Except.ok.inj heval).symm⟩
    · exact .inl (hkept heval)
  · exact .inl (hkept heval)

/-- One of the two tables with a handler for each function that is known. -/
def IsBuiltIn (table : Dispatch) : Prop :=
  table = .standard ∨ table = standard.withEagerJoin

/-- Only joins are evaluated in another way by the table in which they are carried out. -/
theorem invoke_withEagerJoin_of_ne {function : Text} (h : function ≠ join) (d : Deployment)
    (argument : Value) :
    standard.withEagerJoin.invoke d function argument = standard.invoke d function argument := by
  have hhandler : standard.withEagerJoin.handler? function = standard.handler? function :=
    Fields.get?_set_of_ne _ _ h
  rw [invoke, invoke, hhandler]

theorem IsBuiltIn.invoke_of_ne {table : Dispatch} (htable : table.IsBuiltIn) {function : Text}
    (h : function ≠ join) (d : Deployment) (argument : Value) :
    table.invoke d function argument = standard.invoke d function argument := by
  rcases htable with rfl | rfl
  · rfl
  · exact invoke_withEagerJoin_of_ne h d argument

/-- **What an invocation can give**, also where joins are carried out. -/
theorem IsBuiltIn.invoked {table : Dispatch} (htable : table.IsBuiltIn) {d : Deployment}
    {function : Text} {argument : Value} {outcome : Outcome}
    (h : table.invoke d function argument = .ok outcome) :
    Invoked d function argument outcome ∨
      ∃ delimiter texts, argument = .list [.string delimiter, .ofStrings texts] ∧
        outcome = .value (.string (Text.join delimiter texts)) := by
  by_cases hjoin : function = join
  · subst hjoin
    rcases htable with rfl | rfl
    · exact .inl (invoked_of_invoke h)
    · have hhandler : standard.withEagerJoin.handler? join = some .eagerJoin :=
        Fields.get?_set_self _ _ _
      rw [invoke, hhandler] at h
      dsimp only at h
      split at h
      · next heval => exact Except.ok.inj h ▸ evalEagerJoin_cases heval
      · nomatch h
  · rw [htable.invoke_of_ne hjoin] at h
    exact .inl (invoked_of_invoke h)

end Dispatch

end Intrinsic

end CloudTemplate
