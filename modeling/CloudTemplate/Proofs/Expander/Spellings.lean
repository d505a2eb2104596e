import CloudTemplate.Proofs.Evaluation.AvoidedNames
import CloudTemplate.Proofs.Evaluation.StagedCalls
import CloudTemplate.Proofs.Expander.PlainTemplates

/-!
# Spellings of a reference

An attribute of a resource is asked for in four ways: by an array of the resource and the parts of
the attribute, by an array of the resource and the attribute in one piece, by a string with a dot
between the two, and by a variable in a text.  The first three are the same reference, and the
variable is replaced where the reference gives a value that has a text.  A pseudo-parameter or
parameter is asked for in two ways, by a `Ref` or by a variable.

A value that is null keeps the two ways apart: a reference gives it, and a variable of that name
stays.

## Main results

* `Expander.resolve_attribute_spellings`: an attribute in its four spellings.
* `Expander.resolve_ref_and_variable`: a pseudo-parameter or parameter in its two spellings.
-/

namespace CloudTemplate

namespace Text

/-- A resource and an attribute with a dot between them. -/
def dotted (resource attr : Text) : Text :=
  resource ++ CodePoint.char '.' :: attr

theorem join_ne_nil {s : Text} {texts : List Text} (hne : texts ≠ [])
    (h : ∀ t ∈ texts, t ≠ []) : join s texts ≠ [] := by
  match texts with
  | [] => exact absurd rfl hne
  | [t] => exact h t List.mem_cons_self
  | t :: u :: rest => simp [join, h t List.mem_cons_self]

end Text

/-- The value of a pseudo-parameter or parameter, if it is known. -/
def Deployment.known? (d : Deployment) (name : Text) : Option Value :=
  ((d.pseudo.get? name).map .string).or (d.parameters.get? name)

theorem Value.nonNull?_of_ne_null {v : Value} (h : v ≠ .null) : v.nonNull? = some v := by
  cases v with
  | null => exact absurd rfl h
  | bool | int | double | string | list | map => rfl

/-! ### Variables -/

namespace Substitution

/-- A name that a token can have and that is no escape. -/
structure IsVariableName (name : Text) : Prop where
  ne_nil : name ≠ []
  closing_not_mem : closing ∉ name
  not_escape : isEscape name = false

variable {name : Text}

/-- A text that is all one variable is the text of the variable, once this is known. -/
theorem IsVariableName.substitute_eq (h : IsVariableName name) (d : Deployment) :
    substitute d [] (tokenText name) =
      (lookup d [] name).elim (.call Intrinsic.sub (.string (tokenText name))) .string := by
  have hnames : variableNames [.token name] = [name] := by simp [variableNames, h.not_escape]
  rw [substitute, scan_tokenText h.ne_nil h.closing_not_mem]
  cases hlookup : lookup d [] name <;>
    simp [pending, hnames, hlookup, render, renderPiece, h.not_escape, carried]

/-- An attribute of a resource is the name of a variable if the resource is one. -/
theorem IsVariableName.dotted (h : IsVariableName name) {attr : Text} (hattr : closing ∉ attr) :
    IsVariableName (name.dotted attr) where
  ne_nil := by simp [Text.dotted]
  closing_not_mem :=
    List.not_mem_append h.closing_not_mem (List.not_mem_cons_of_ne_of_not_mem (by decide) hattr)
  not_escape := by
    obtain ⟨c, rest, rfl⟩ := List.exists_cons_of_ne_nil h.ne_nil
    exact h.not_escape

/-- A name with a dot is that of an attribute. -/
theorem lookup_dotted {resource : Text} (hdot : .char '.' ∉ resource) (d : Deployment)
    (attr : Text) :
    lookup d [] (resource.dotted attr) = (d.attribute? resource attr).bind scalarText? := by
  rw [lookup, Fields.get?_nil, Text.dotted, Text.cut_append hdot]

/-- A name without a dot is that of a pseudo-parameter or parameter. -/
theorem lookup_of_not_mem (hdot : .char '.' ∉ name) (d : Deployment) :
    lookup d [] name = ((d.known? name).bind Value.nonNull?).map Value.text := by
  rw [lookup, Fields.get?_nil, Text.cut_of_not_mem hdot, Deployment.known?]
  cases d.pseudo.get? name <;> rfl

theorem scalarText?_of_isAtom {v : Value} (hatom : v.isAtom = true) (hnull : v ≠ .null) :
    scalarText? v = some v.text := by
  cases v with
  | null => exact absurd rfl hnull
  | bool | int | double | string => rfl
  | list | map => cases hatom

end Substitution

namespace Intrinsic

open Substitution (IsVariableName substitute tokenText)

/-! ### The arguments of `Fn::GetAtt` -/

theorem attributeTarget_parts (resource : Text) {parts : List Text} (h : parts ≠ []) :
    attributeTarget (.ofStrings (resource :: parts)) = .ok (resource, Text.join "." parts) := by
  obtain ⟨part, rest, rfl⟩ := List.exists_cons_of_ne_nil h
  exact attributeTarget_list_eq_ok_iff.mpr ⟨part, rest, rfl, rfl⟩

theorem attributeTarget_dotted {resource attr : Text} (hresource : resource ≠ [])
    (hdot : .char '.' ∉ resource) (hattr : attr ≠ []) :
    attributeTarget (.string (resource.dotted attr)) = .ok (resource, attr) :=
  attributeTarget_string_eq_ok_iff.mpr ⟨rfl, hdot, hresource, hattr⟩

/-- An attribute gives its value, or it is not known and the call is kept. -/
theorem evalGetAtt_cases {d : Deployment} {resource attr : Text} {v : Value}
    (h : evalGetAtt d (.ofStrings [resource, attr]) = .ok (.value v)) :
    d.attribute? resource attr = some v ∨
      d.attribute? resource attr = none ∧ v = .call getAtt (.ofStrings [resource, attr]) := by
  cases hknown : d.attribute? resource attr with
  | some w =>
    exact .inl (congrArg some
      (Outcome.value.inj (Dispatch.evalGetAtt_of_known
      (Dispatch.attributeTarget_ofStrings _ _) hknown h)).symm)
  | none =>
    rw [evalGetAtt, Dispatch.attributeTarget_ofStrings] at h
    obtain ⟨_, htarget, h⟩ := bind_eq_ok.mp h
    obtain rfl := Except.ok.inj htarget
    dsimp only at h
    rw [hknown] at h
    split at h
    · cases h
    · exact .inr ⟨rfl, (Outcome.value.inj (Except.ok.inj h)).symm⟩

/-- A reference gives what is known. -/
theorem evalRef_string {name : Text} (h : name ≠ Pseudo.noValue) (d : Deployment) :
    evalRef d (.string name) =
      .ok (.value ((d.known? name).getD (.call ref (.string name)))) := by
  rw [evalRef, if_neg h, Deployment.known?]
  cases d.pseudo.get? name with
  | some t => rfl
  | none => cases d.parameters.get? name <;> rfl

end Intrinsic

namespace Expander

open Intrinsic (Error isName isDeferred getAtt sub ref)
open Substitution (IsVariableName substitute tokenText closing lookup)

variable {e : Expander} {l : Location}

/-! ### Calls of arguments without calls -/

theorem evaluateArgument_of_isCallFree {argument : Value} (h : argument.IsCallFree)
    (function : Text) : e.evaluateArgument l function argument = pure argument := by
  cases argument with
  | list items =>
    have hbranches : (items.map Outcome.value).map Outcome.kept = items := by
      rw [List.map_map]
      exact List.map_id items
    rw [evaluateArgument_list,
      evaluateEach_of_fixed fun v hv l => evaluate_of_isCallFree (h.of_mem_items hv), map_pure,
      Outcome.gathered, Outcome.items_map_value, hbranches, ite_self]
  | null | bool | int | double | string | map =>
    rw [evaluateArgument_of_ne_list (by simp), evaluate_of_isCallFree h, map_pure, Outcome.kept]

section

variable (hr : e.renames = []) (hp : e.placeholders = .empty)
include hr hp

/-- A call of an argument without calls: its edge is noted, and its handler does the rest. -/
theorem evaluate_call_of_isCallFree {function : Text} {argument : Value}
    (hname : isName function = true) (hd : isDeferred function = false)
    (h : argument.IsCallFree) :
    e.evaluate l (.call function argument) =
      Recorded.noteAll (e.edge? l function argument).toList >>= fun _ =>
        Recorded.mapError (Error.locatedAt l)
          (Recorded.ofExcept (e.dispatch.invoke e.deployment function argument)) := by
  rw [evaluate_call hname,
    evaluateCall_eq (by rw [isVerbatim_of_placeholders_empty hp, hd]),
    renameIn_of_renames_nil hr, evaluateArgument_of_isCallFree h, pure_bind]

theorem result_resolve_call {function : Text} {argument : Value}
    (hname : isName function = true) (hd : isDeferred function = false)
    (h : argument.IsCallFree) :
    (e.resolve (.call function argument) l).1 =
      (e.dispatch.invoke e.deployment function argument).mapError (Error.locatedAt l) := by
  rw [resolve, keep, evaluate_call hname,
    result_evaluateCall hr (by rw [isVerbatim_of_placeholders_empty hp, hd]),
    evaluateArgument_of_isCallFree h]
  rfl

/-- A reference depends on nothing but the attribute that it names. -/
theorem evaluate_getAtt_of_target (hgetAtt : e.dispatch.handler? getAtt = some .getAtt)
    {argument : Value} {resource attr : Text}
    (h : Intrinsic.attributeTarget argument = .ok (resource, attr)) :
    e.evaluate l (.call getAtt argument) =
      e.evaluate l (.call getAtt (.ofStrings [resource, attr])) := by
  have hedge : e.edge? l getAtt argument = e.edge? l getAtt (.ofStrings [resource, attr]) := by
    rw [edge?, edge?, Intrinsic.referenced?_of_attributeTarget h]
    rfl
  rw [evaluate_call_of_isCallFree hr hp Intrinsic.isName_getAtt (by decide)
      (Intrinsic.Dispatch.isCallFree_of_attributeTarget h),
    evaluate_call_of_isCallFree hr hp Intrinsic.isName_getAtt (by decide)
      (Value.isCallFree_ofStrings _), hedge,
    Intrinsic.Dispatch.invoke_of_handler? hgetAtt, Intrinsic.Dispatch.invoke_of_handler? hgetAtt,
    Intrinsic.Handler.eval, Intrinsic.Handler.eval, Intrinsic.Dispatch.evalGetAtt_ofStrings h]

/-- A text that is all one variable resolves to the text of the variable, once this is known. -/
theorem resolve_variable (hsub : e.dispatch.handler? sub = some .sub) {name : Text}
    (hname : IsVariableName name) :
    (e.resolve (.call sub (.string (tokenText name))) l).1 =
      .ok (.value ((lookup e.deployment [] name).elim (.call sub (.string (tokenText name)))
        .string)) := by
  rw [result_resolve_call hr hp (by decide) (by decide) (Value.isCallFree_of_isAtom rfl),
    Intrinsic.Dispatch.invoke_of_handler? hsub, Intrinsic.Handler.eval, Intrinsic.evalSub,
    hname.substitute_eq]
  rfl

end

/-- **The spellings of an attribute.**  Take an expander without new names and placeholders, a
resource whose name a token can have, without a dot, and an attribute of one or more parts.  At
every location it makes no difference to the result, which may be an error, and to the edges whether
the parts are given one by one, with dots between them, or with the resource and a dot in front.  If
the attribute has a value with a text, then the variable with that name is replaced by it; as long
as the reference is kept, the text with the variable is kept too. -/
theorem resolve_attribute_spellings (hr : e.renames = []) (hp : e.placeholders = .empty)
    (hgetAtt : e.dispatch.handler? getAtt = some .getAtt)
    (hsub : e.dispatch.handler? sub = some .sub) {resource : Text}
    (hresource : IsVariableName resource) (hdot : .char '.' ∉ resource) {parts : List Text}
    (hparts : parts ≠ []) (hpart : ∀ part ∈ parts, part ≠ [] ∧ closing ∉ part) (l : Location) :
    let attr := Text.join "." parts
    let reference := Value.call getAtt (.ofStrings [resource, attr])
    let text := tokenText (resource.dotted attr)
    e.resolve (.call getAtt (.ofStrings (resource :: parts))) l = e.resolve reference l ∧
      e.resolve (.call getAtt (.string (resource.dotted attr))) l = e.resolve reference l ∧
      (∀ v, (e.resolve reference l).1 = .ok (.value v) → v.isAtom = true → v ≠ .null →
        ∀ l', (e.resolve (.call sub (.string text)) l').1 = .ok (.value (.string v.text))) ∧
      ((e.resolve reference l).1 = .ok (.value reference) →
        ∀ l', (e.resolve (.call sub (.string text)) l').1 =
          .ok (.value (.call sub (.string text)))) := by
  intro attr reference text
  have hattr : attr ≠ [] := Text.join_ne_nil hparts fun part h => (hpart part h).1
  have hclosing : closing ∉ attr := Text.not_mem_join (by decide) fun part h => (hpart part h).2
  have hvalue : ∀ {v}, (e.resolve reference l).1 = .ok (.value v) →
      e.deployment.attribute? resource attr = some v ∨
        e.deployment.attribute? resource attr = none ∧ v = reference := by
    intro v hv
    rw [result_resolve_call hr hp Intrinsic.isName_getAtt (by decide)
      (Value.isCallFree_ofStrings _), mapError_eq_ok,
      Intrinsic.Dispatch.invoke_of_handler? hgetAtt, mapError_eq_ok] at hv
    exact Intrinsic.evalGetAtt_cases hv
  have hvariable (l' : Location) := resolve_variable (l := l') hr hp hsub
    (hresource.dotted hclosing)
  rw [Substitution.lookup_dotted hdot] at hvariable
  refine ⟨?parts, ?dotted, ?known, ?kept⟩
  case parts =>
    rw [resolve, resolve, evaluate_getAtt_of_target hr hp hgetAtt
      (Intrinsic.attributeTarget_parts resource hparts)]
  case dotted =>
    rw [resolve, resolve, evaluate_getAtt_of_target hr hp hgetAtt
      (Intrinsic.attributeTarget_dotted hresource.ne_nil hdot hattr)]
  case known =>
    intro v hv hatom hnull l'
    rcases hvalue hv with hknown | ⟨-, rfl⟩
    · rw [hvariable, hknown, Option.bind_some, Substitution.scalarText?_of_isAtom hatom hnull]
      rfl
    · cases hatom
  case kept =>
    intro hkept l'
    rcases hvalue hkept with hknown | ⟨hunknown, -⟩
    · rw [hvariable, hknown]
      rfl
    · rw [hvariable, hunknown]
      rfl

/-- An attribute in two parts is asked for by the variable with a dot between them. -/
theorem resolve_attribute_spellings_of_two_parts :
    let attr := Text.join "." ["Endpoint", "Port"]
    let e : Expander := { deployment := ({} : Deployment).setAttribute "Db" attr (.int 5432) }
    let l : Location := ((Location.root.entry "Resources").entry "App").entry "Properties"
    let reference := Value.call getAtt (.ofStrings ["Db", attr])
    (e.resolve reference l).1 = .ok (.value (.int 5432)) ∧
      e.resolve (.call getAtt (.ofStrings ["Db", "Endpoint", "Port"])) l = e.resolve reference l ∧
      e.resolve (.call getAtt (.string (Text.dotted "Db" attr))) l = e.resolve reference l ∧
      (e.resolve (.call sub (.string (tokenText (Text.dotted "Db" attr)))) l).1 =
        .ok (.value (.string "5432")) := by
  intro attr e l reference
  have hvalue : (e.resolve reference l).1 = .ok (.value (.int 5432)) := by decide +kernel
  have hresource : IsVariableName "Db" := ⟨by decide, by decide, by decide⟩
  have hpart : ∀ part ∈ (["Endpoint", "Port"] : List Text), part ≠ [] ∧ closing ∉ part := by decide
  obtain ⟨hparts, hdotted, htext, -⟩ := resolve_attribute_spellings (e := e) rfl rfl rfl rfl
    hresource (by decide) (by simp) hpart l
  exact ⟨hvalue, hparts, hdotted, htext _ hvalue rfl (by simp) l⟩

/-- **The spellings of a pseudo-parameter or parameter.**  Take an expander without new names and
placeholders and a name that a token can have, without a dot, other than `AWS::NoValue`.  If nothing
is known under the name, then the reference and the text with the variable are both kept.  If a
value is known, then the reference gives it, and the variable is replaced by its text; only a
variable whose value is null stays. -/
theorem resolve_ref_and_variable (hr : e.renames = []) (hp : e.placeholders = .empty)
    (href : e.dispatch.handler? ref = some .ref) (hsub : e.dispatch.handler? sub = some .sub)
    {name : Text} (hname : IsVariableName name) (hdot : .char '.' ∉ name)
    (hvalue : name ≠ Pseudo.noValue) (l l' : Location) :
    let reference := Value.call ref (.string name)
    let text := Value.call sub (.string (tokenText name))
    (e.deployment.known? name = none →
      (e.resolve reference l).1 = .ok (.value reference) ∧
        (e.resolve text l').1 = .ok (.value text)) ∧
      ∀ v, e.deployment.known? name = some v →
        (e.resolve reference l).1 = .ok (.value v) ∧
          (v ≠ .null → (e.resolve text l').1 = .ok (.value (.string v.text))) ∧
          (v = .null → (e.resolve text l').1 = .ok (.value text)) := by
  intro reference text
  have hreference : (e.resolve reference l).1 =
      .ok (.value ((e.deployment.known? name).getD reference)) := by
    rw [result_resolve_call hr hp Intrinsic.isName_ref (by decide)
        (Value.isCallFree_of_isAtom rfl), Intrinsic.Dispatch.invoke_of_handler? href,
      Intrinsic.Handler.eval, Intrinsic.evalRef_string hvalue]
    rfl
  have hvariable := resolve_variable (l := l') hr hp hsub hname
  rw [Substitution.lookup_of_not_mem hdot] at hvariable
  constructor
  · intro hunknown
    rw [hunknown] at hreference hvariable
    exact ⟨hreference, hvariable⟩
  · intro v hknown
    rw [hknown] at hreference hvariable
    refine ⟨hreference, fun hnull => ?_, ?_⟩
    · rw [Option.bind_some, Value.nonNull?_of_ne_null hnull] at hvariable
      exact hvariable
    · rintro rfl
      exact hvariable

/-- One parameter is known and another is not. -/
theorem resolve_ref_and_variable_of_two_names :
    let e : Expander := { deployment := ({} : Deployment).setParameter "Size" (.int 3) }
    let text (name : Text) : Value := .call sub (.string (tokenText name))
    e.deployment.known? "Size" = some (.int 3) ∧ e.deployment.known? "Later" = none ∧
      (e.resolve (.call ref (.string "Size")) .root).1 = .ok (.value (.int 3)) ∧
      (e.resolve (text "Size") .root).1 = .ok (.value (.string (Value.int 3).text)) ∧
      (e.resolve (.call ref (.string "Later")) .root).1 =
        .ok (.value (.call ref (.string "Later"))) ∧
      (e.resolve (text "Later") .root).1 = .ok (.value (text "Later")) := by
  intro e text
  have hknown : e.deployment.known? "Size" = some (.int 3) := by decide
  have hunknown : e.deployment.known? "Later" = none := by decide
  have hsize : IsVariableName "Size" := ⟨by decide, by decide, by decide⟩
  have hlater : IsVariableName "Later" := ⟨by decide, by decide, by decide⟩
  obtain ⟨-, hvalue⟩ := resolve_ref_and_variable (e := e) rfl rfl rfl rfl hsize (by decide)
    (by decide) .root .root
  obtain ⟨hkept, -⟩ := resolve_ref_and_variable (e := e) rfl rfl rfl rfl hlater (by decide)
    (by decide) .root .root
  obtain ⟨href, htext, -⟩ := hvalue _ hknown
  exact ⟨hknown, hunknown, href, htext (by simp), hkept hunknown⟩

/-- A parameter is given the value null.  A reference gives null, whose text is empty, but the
variable is not replaced by the empty text. -/
theorem resolve_variable_of_null :
    let e : Expander := { deployment := (Deployment.ofTemplate none).setParameter "P" .null }
    let text := Value.call sub (.string (tokenText "P"))
    e.deployment.known? "P" = some .null ∧
      (e.resolve (.call ref (.string "P")) .root).1 = .ok (.value .null) ∧
      Value.null.text = [] ∧
      (e.resolve text .root).1 = .ok (.value text) ∧
      (e.resolve text .root).1 ≠ .ok (.value (.string Value.null.text)) := by
  decide +kernel

end Expander

end CloudTemplate
