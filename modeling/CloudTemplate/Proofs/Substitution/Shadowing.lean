import CloudTemplate.Proofs.Evaluation.NestedConditionals
import CloudTemplate.Proofs.Evaluation.StagedCalls
import CloudTemplate.Proofs.Substitution.Rescanning

/-!
# Local variables hide what else has their names

The local variables of a substitution are evaluated like the entries of any other map, before the
text is looked through.  A local variable that has a value then hides every parameter,
pseudo-parameter and attribute of its name: the text of the value takes the place of the token, or,
if the value has no text yet, the token stays and the value is carried along with it.

A local variable without a value hides nothing.  Its entry disappears from the map, as every entry
without a value does, and the name means again what it means elsewhere.  Nor is an escape ever taken
for a local variable, whatever the map holds under its name.

## Main results

* `Expander.resolve_local_hides`: what stands for each token where a substitution with local
  variables resolves.
-/

namespace CloudTemplate

namespace Substitution

variable {d : Deployment} {locals : Fields Value}

/-- The text of a piece, when it is said for each token what stands in its place. -/
def Piece.shownBy (shown : Text → Text) : Piece → Text
  | .literal c => [c]
  | .token name => shown name

/-- A substitution comes to a text, or it leaves a call with a text and the local variables that it
carries along. -/
def Leaves (outcome : Outcome) (text : Text) (needed : Fields Value) : Prop :=
  (outcome = .value (.string text) ∧ needed = []) ∨
    ∃ left, outcome = .value (.call Intrinsic.sub left) ∧ textAndLocals? left = some (text, needed)

/-! ### Names with and without a local variable -/

theorem lookup_of_local {name : Text} {u : Value} (h : locals.get? name = some u) :
    lookup d locals name = scalarText? u := by
  rw [lookup, h]

/-- A name without a local variable means what it means elsewhere. -/
theorem lookup_of_no_local {name : Text} (h : locals.get? name = none) :
    lookup d locals name = lookup d [] name := by
  rw [lookup, lookup, h, Fields.get?_nil]

theorem renderPiece_of_isEscape {name : Text} (h : isEscape name = true) (final : Bool) :
    renderPiece d locals final (.token name) = tokenText name ∨
      renderPiece d locals final (.token name) = tokenText (name.drop 1) := by
  rw [renderPiece, if_pos h]
  cases final with
  | false => exact .inl rfl
  | true => exact .inr rfl

theorem renderPiece_of_not_isEscape {name : Text} (h : ¬ isEscape name = true) (final : Bool) :
    renderPiece d locals final (.token name) = (lookup d locals name).getD (tokenText name) := by
  rw [renderPiece, if_neg h]
  cases lookup d locals name <;> rfl

/-- What stands for a token with a local variable: the text of its value, or the token itself if the
value has no text. -/
theorem renderPiece_of_local {name : Text} (h : ¬ isEscape name = true) {u : Value}
    (hlocal : locals.get? name = some u) (final : Bool) :
    (scalarText? u = some u.text ∧ renderPiece d locals final (.token name) = u.text) ∨
      (scalarText? u = none ∧ renderPiece d locals final (.token name) = tokenText name ∧
        lookup d locals name = none) := by
  have hlookup := lookup_of_local (d := d) hlocal
  rw [renderPiece_of_not_isEscape h, hlookup]
  cases hscalar : scalarText? u with
  | some t =>
    obtain rfl := (text_of_scalarText? hscalar).2
    exact .inl ⟨rfl, rfl⟩
  | none => exact .inr ⟨rfl, rfl, rfl⟩

/-- Every pending name that has a local variable takes it along. -/
theorem get?_carried {pieces : List Piece} {name : Text} (h : name ∈ pending d locals pieces) :
    (carried d locals pieces).get? name = locals.get? name := by
  rw [carried, Fields.get?_filter locals (fun key => (pending d locals pieces).contains key),
    if_pos (List.contains_iff_mem.mpr h)]

/-- What a substitution leaves, and which local variables it carries along. -/
theorem exists_leaves_substitute (d : Deployment) (locals : Fields Value) (text : Text) :
    ∃ needed, Leaves (.value (substitute d locals text)) (render d locals (scan text)) needed ∧
      ∀ name ∈ pending d locals (scan text), needed.get? name = locals.get? name := by
  obtain ⟨hnil, heq⟩ | ⟨-, hcarried, heq⟩ | ⟨-, -, heq⟩ := substitute_cases d locals text
  all_goals rw [heq]
  · refine ⟨[], .inl ⟨rfl, rfl⟩, fun name hname => ?_⟩
    rw [hnil] at hname
    cases hname
  · exact ⟨[], .inr ⟨_, rfl, rfl⟩, fun name hname => hcarried ▸ get?_carried hname⟩
  · exact ⟨carried d locals (scan text), .inr ⟨_, rfl, rfl⟩, fun name => get?_carried⟩

end Substitution

/-! ### Local variables that are evaluated -/

namespace Intrinsic.Dispatch

variable {table : Dispatch} {d : Deployment}

/-- The first entry of a name is the one that is seen after the evaluation, if it has a value. -/
theorem exists_reduce_of_get? {locals : Fields Value} {outcomes : List (Text × Outcome)}
    (hok : table.reduceNamed d locals = .ok outcomes) {name : Text} {v : Value}
    (hv : locals.get? name = some v) :
    ∃ outcome, table.reduce d v = .ok outcome ∧ ∀ u, outcome = .value u →
      Fields.get? (Outcome.entries outcomes) name = some u := by
  induction locals generalizing outcomes with
  | nil => cases hv
  | cons entry rest ih =>
    obtain ⟨key, w⟩ := entry
    obtain ⟨outcome, others, hw, hrest, rfl⟩ := reduceNamed_cons_eq_ok.mp hok
    rw [Fields.get?_cons] at hv
    rw [Outcome.entries_cons]
    split at hv
    · next hkey =>
      obtain rfl := Option.some.inj hv
      refine ⟨outcome, hw, ?_⟩
      rintro u rfl
      rw [Outcome.entry, List.singleton_append, Fields.get?_cons, if_pos hkey]
    · next hkey =>
      obtain ⟨found, hfound, hget⟩ := ih hrest hv
      exact ⟨found, hfound, fun u hu => by rw [outcome.get?_entry_append hkey, hget u hu]⟩

/-- A name is not seen after the evaluation if none of its entries has a value. -/
theorem get?_entries_eq_none {locals : Fields Value} {outcomes : List (Text × Outcome)}
    (hok : table.reduceNamed d locals = .ok outcomes) {name : Text}
    (hnone : ∀ v, (name, v) ∈ locals → table.reduce d v = .ok .noValue) :
    Fields.get? (Outcome.entries outcomes) name = none := by
  induction locals generalizing outcomes with
  | nil =>
    rw [reduceNamed_nil] at hok
    obtain rfl := Except.ok.inj hok
    rfl
  | cons entry rest ih =>
    obtain ⟨key, w⟩ := entry
    obtain ⟨outcome, others, hw, hrest, rfl⟩ := reduceNamed_cons_eq_ok.mp hok
    have hothers := ih hrest fun v hv => hnone v (List.mem_cons_of_mem _ hv)
    rw [Outcome.entries_cons]
    by_cases hkey : key = name
    · subst hkey
      obtain rfl := Except.ok.inj (hw.symm.trans (hnone w List.mem_cons_self))
      exact hothers
    · rw [outcome.get?_entry_append hkey, hothers]

/-- A substitution with local variables evaluates these, and then the text. -/
theorem reduce_textWithLocals_eq_ok (hsub : table.handler? sub = some .sub) {text : Text}
    {locals : Fields Value} (hcall : call? locals = none) {outcome : Outcome}
    (h : table.reduce d (.call sub (.list [.string text, .map locals])) = .ok outcome) :
    ∃ outcomes, table.reduceNamed d locals = .ok outcomes ∧
      outcome = .value (Substitution.substitute d (Outcome.entries outcomes) text) := by
  obtain ⟨evaluated, hargument, hinvoke⟩ := (reduce_call_eq_ok (by decide) (by decide)).mp h
  obtain ⟨outcomes, hnamed, rfl⟩ := (reduceArgument_textWithLocals_eq_ok hcall).mp hargument
  rw [invoke_of_handler? hsub, mapError_eq_ok] at hinvoke
  exact ⟨outcomes, hnamed, (Except.ok.inj hinvoke).symm⟩

end Intrinsic.Dispatch

namespace Expander

open Substitution

variable {e : Expander} {locals : Fields Value} {text : Text}

/-- **A local variable hides what else has its name.**  Take an expander that evaluates
substitutions, without new names and placeholders, and a substitution with a text and a map of local
variables that is no call.  If it resolves, then the text comes out with something in the place of
each token.

Unless the token is an escape, a local variable of its name resolves.  If it has a value, then the
text of this value stands for the token, or, where the value has no text yet, the token itself does
and the value is carried along under the name; nothing else of this name is looked up.  Only if the
local variables of a name have no values is the token what it is without them.  The token of an
escape stays, with or without its mark. -/
theorem resolve_local_hides (hsub : e.dispatch.handler? Intrinsic.sub = some .sub)
    (hr : e.renames = []) (hp : e.placeholders = .empty) (hcall : Intrinsic.call? locals = none)
    {l : Location} {outcome : Outcome}
    (h : (e.resolve (.call Intrinsic.sub (.list [.string text, .map locals])) l).1 = .ok outcome) :
    ∃ shown needed, Leaves outcome ((scan text).flatMap (Piece.shownBy shown)) needed ∧
      ∀ name, .token name ∈ scan text →
        (isEscape name = true →
          shown name = tokenText name ∨ shown name = tokenText (name.drop 1)) ∧
        (¬ isEscape name = true →
          (∀ v, locals.get? name = some v → ∃ found, e.ResolvesTo v found ∧
            ∀ u, found = .value u →
              (scalarText? u = some u.text ∧ shown name = u.text) ∨
              (scalarText? u = none ∧ shown name = tokenText name ∧
                needed.get? name = some u)) ∧
          ((∀ v, (name, v) ∈ locals → e.ResolvesTo v .noValue) →
            shown name = (lookup e.deployment [] name).getD (tokenText name))) := by
  obtain ⟨outcomes, hnamed, rfl⟩ :=
    Intrinsic.Dispatch.reduce_textWithLocals_eq_ok hsub hcall ((resolve_eq_ok hr hp).mp h)
  obtain ⟨needed, hleaves, hneeded⟩ :=
    exists_leaves_substitute e.deployment (Outcome.entries outcomes) text
  let final := (pending e.deployment (Outcome.entries outcomes) (scan text)).isEmpty
  let shown (name : Text) : Text :=
    renderPiece e.deployment (Outcome.entries outcomes) final (.token name)
  have hshown : Piece.shownBy shown =
      renderPiece e.deployment (Outcome.entries outcomes) final := by
    funext piece
    cases piece <;> rfl
  refine ⟨shown, needed, hshown ▸ hleaves, fun name htoken =>
    ⟨fun hescape => renderPiece_of_isEscape hescape final, fun hvariable => ⟨fun v hv => ?hides,
      fun hnone => ?missing⟩⟩⟩
  case hides =>
    obtain ⟨found, hfound, hget⟩ := Intrinsic.Dispatch.exists_reduce_of_get? hnamed hv
    refine ⟨found, fun l' => (resolve_eq_ok hr hp).mpr hfound, fun u hu => ?_⟩
    have hlocal := hget u hu
    refine (renderPiece_of_local hvariable hlocal final).imp_right fun hkept => ?_
    have hpending := mem_pending htoken hvariable hkept.2.2
    exact ⟨hkept.1, hkept.2.1, (hneeded name hpending).trans hlocal⟩
  case missing =>
    have hreduce : ∀ v, (name, v) ∈ locals →
        e.dispatch.reduce e.deployment v = .ok .noValue := fun v hv =>
      (resolve_eq_ok hr hp).mp (hnone v hv l)
    have hother := lookup_of_no_local (d := e.deployment)
      (Intrinsic.Dispatch.get?_entries_eq_none hnamed hreduce)
    exact hother ▸ renderPiece_of_not_isEscape hvariable final

/-- Three local variables have the names of parameters.  The first hides its parameter, the second
stays for the deployment, and the third turns out to have no value. -/
theorem resolve_local_hides_of_three_names :
    let e : Expander := { deployment :=
      ((({} : Deployment).setParameter "Env" (.string "prod")).setParameter "Port"
        (.int 80)).setParameter "Tier" (.string "web") }
    let port : Value := .call Intrinsic.getAtt (.ofStrings ["Db", "Port"])
    let text : Text := "$\x7bEnv\x7d:$\x7bPort\x7d/$\x7bTier\x7d"
    let locals : Fields Value :=
      [("Env", .string "local"), ("Port", port), ("Tier", .noValueRef)]
    let outcome : Outcome := .value (.call Intrinsic.sub
      (.list [.string "local:$\x7bPort\x7d/web", .map [("Port", port)]]))
    (e.resolve (.call Intrinsic.sub (.list [.string text, .map locals])) .root).1 = .ok outcome ∧
      ∃ shown needed, Leaves outcome ((scan text).flatMap (Piece.shownBy shown)) needed ∧
        shown "Env" = "local" ∧ shown "Port" = tokenText "Port" ∧
        needed.get? "Port" = some port ∧ shown "Tier" = "web" := by
  intro e port text locals outcome
  have hresolve : (e.resolve (.call Intrinsic.sub (.list [.string text, .map locals])) .root).1 =
      .ok outcome := by decide +kernel
  obtain ⟨shown, needed, hleaves, htokens⟩ := resolve_local_hides rfl rfl rfl rfl hresolve
  have hvalue {v u : Value} {found : Outcome} (hfound : e.ResolvesTo v found)
      (hu : (e.resolve v .root).1 = .ok (.value u)) : found = .value u :=
    Except.ok.inj ((hfound .root).symm.trans hu)
  obtain ⟨henv, -⟩ := (htokens "Env" (by decide +kernel)).2 (by decide)
  obtain ⟨hport, -⟩ := (htokens "Port" (by decide +kernel)).2 (by decide)
  obtain ⟨-, htier⟩ := (htokens "Tier" (by decide +kernel)).2 (by decide)
  obtain ⟨_, hfound, henv⟩ := henv (.string "local") rfl
  obtain ⟨_, hfound', hport⟩ := hport port (by decide +kernel)
  have henv := henv (.string "local") (hvalue hfound (by decide +kernel))
  have hport := hport port (hvalue hfound' (by decide +kernel))
  have hmissing : e.ResolvesTo .noValueRef .noValue := fun _ =>
    (resolve_eq_ok rfl rfl).mpr (by decide +kernel)
  have hlocals : ∀ entry ∈ locals, entry.1 = "Tier" → entry.2 = .noValueRef := by decide +kernel
  have htier := htier fun v hv => by
    obtain rfl : v = .noValueRef := hlocals _ hv rfl
    exact hmissing
  rcases henv with ⟨-, henv⟩ | ⟨hnone, -⟩
  · rcases hport with ⟨hsome, -⟩ | ⟨-, hport⟩
    · cases hsome
    · exact ⟨hresolve, shown, needed, hleaves, henv, hport.1, hport.2, htier⟩
  · cases hnone

/-- A parameter comes through where the local variable of its name has no value, and an escape is
not replaced though the local variables have an entry of its name. -/
theorem resolve_local_without_value :
    let e : Expander := { deployment := ({} : Deployment).setParameter "Env" (.string "prod") }
    let node (text name : Text) (v : Value) : Value :=
      .call Intrinsic.sub (.list [.string text, .map [(name, v)]])
    (e.resolve .noValueRef .root).1 = .ok .noValue ∧
      (e.resolve (node "$\x7bEnv\x7d" "Env" .noValueRef) .root).1 = .ok (.value (.string "prod")) ∧
      (e.resolve (node "$\x7b!X\x7d" "!X" (.string "a")) .root).1 =
        .ok (.value (.string "$\x7bX\x7d")) := by
  decide +kernel

end Expander

end CloudTemplate
