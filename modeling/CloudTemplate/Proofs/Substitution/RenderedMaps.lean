import CloudTemplate.Proofs.Substitution.Shadowing

/-!
# Maps do not become text, except those in parameters

A map is a call that waits for the deployment, and so no text may take its place.  The name of a
variable is bound to a value in one of three places: among the local variables, among the known
attributes or among the parameters (`Substitution.Binds`).  A local variable or an attribute takes
the place of its token only if it is a scalar, so that a token stays if there is a map in its value,
and the call is left to the deployment.  The value of a parameter may also be a list, and it is not
looked at more closely: a map that is a parameter, or stands in one, is written out like a message.

## Main results

* `Substitution.evalSub_shows_maps_of_parameters`: what stands for each token, and from where it can
  come that the text of a map is in it.
-/

namespace CloudTemplate

/-! ### Values with maps in them -/

/-- The value is a map, or a list that holds a map at some depth. -/
inductive Value.HoldsMap : Value → Prop
  | map (entries : Fields Value) : HoldsMap (.map entries)
  | item {items : List Value} {v : Value} (hv : v ∈ items) (h : HoldsMap v) : HoldsMap (.list items)

/-- The text of a value with a map in it has the text of a map in it. -/
theorem Value.HoldsMap.exists_infix_text {v : Value} (h : v.HoldsMap) :
    ∃ entries, (Value.map entries).text <:+: v.text := by
  induction h with
  | map entries => exact ⟨entries, List.infix_refl _⟩
  | @item items v hv _ ih =>
    obtain ⟨entries, hentries⟩ := ih
    refine ⟨entries, hentries.trans ?_⟩
    rw [Value.text, Value.textItems_eq_map]
    exact Text.infix_join (List.mem_map_of_mem hv)

namespace Substitution

/-! ### Where a variable has its value -/

/-- Where the value of a variable is found. -/
inductive Source where
  | locals
  | attributes
  | parameters
  deriving DecidableEq, Repr

/-- The name of a variable is bound to a value. -/
inductive Binds (d : Deployment) (locals : Fields Value) (name : Text) : Source → Value → Prop
  | locals {v : Value} (h : locals.get? name = some v) : Binds d locals name .locals v
  | attributes {v : Value} {resource attr : Text} (hlocal : locals.get? name = none)
      (hname : name = resource ++ .char '.' :: attr) (hdot : .char '.' ∉ resource)
      (h : d.attribute? resource attr = some v) : Binds d locals name .attributes v
  | parameters {v : Value} (hlocal : locals.get? name = none) (hdot : .char '.' ∉ name)
      (hpseudo : d.pseudo.get? name = none) (h : d.parameters.get? name = some v) :
      Binds d locals name .parameters v

/-- The text that takes the place of a variable with a value. -/
def Source.text? : Source → Value → Option Text
  | .locals, v | .attributes, v => scalarText? v
  | .parameters, v => v.nonNull?.map Value.text

variable {d : Deployment} {locals : Fields Value} {name : Text} {source : Source} {v : Value}

theorem Binds.lookup_eq (h : Binds d locals name source v) :
    lookup d locals name = source.text? v := by
  cases h with
  | locals h => rw [lookup, h]; rfl
  | attributes hlocal hname hdot h =>
    rw [lookup, hlocal, hname, Text.cut_append hdot]
    dsimp only
    rw [h]
    rfl
  | parameters hlocal hdot hpseudo h =>
    rw [lookup, hlocal, Text.cut_of_not_mem hdot]
    dsimp only
    rw [hpseudo, h]
    rfl

/-- A variable is known from the value to which its name is bound, or it is a pseudo-parameter. -/
theorem exists_binds_of_lookup {t : Text} (h : lookup d locals name = some t) :
    d.pseudo.get? name = some t ∨
      ∃ source v, Binds d locals name source v ∧ source.text? v = some t := by
  cases hlocal : locals.get? name with
  | some v =>
    rw [lookup_of_local hlocal] at h
    exact .inr ⟨.locals, v, .locals hlocal, h⟩
  | none =>
    rw [lookup, hlocal] at h
    by_cases hdot : .char '.' ∈ name
    · obtain ⟨resource, attr, rfl, hresource⟩ := List.eq_append_cons_of_mem hdot
      rw [Text.cut_append hresource] at h
      obtain ⟨v, hv, h⟩ := Option.bind_eq_some_iff.mp h
      exact .inr ⟨.attributes, v, .attributes hlocal rfl hresource hv, h⟩
    · rw [Text.cut_of_not_mem hdot] at h
      cases hpseudo : d.pseudo.get? name with
      | some text =>
        rw [hpseudo] at h
        exact .inl h
      | none =>
        rw [hpseudo] at h
        obtain ⟨u, hu, rfl⟩ := Option.map_eq_some_iff.mp h
        obtain ⟨v, hv, hnonNull⟩ := Option.bind_eq_some_iff.mp hu
        exact .inr ⟨.parameters, v, .parameters hlocal hdot hpseudo hv,
          Option.map_eq_some_iff.mpr ⟨u, hnonNull, rfl⟩⟩

/-- No source but the parameters gives a text to a value with a map in it. -/
theorem Source.text?_of_holdsMap (h : v.HoldsMap) (hsource : source ≠ .parameters) :
    source.text? v = none := by
  cases source with
  | locals | attributes => cases h <;> rfl
  | parameters => exact absurd rfl hsource

/-- The parameters give every value with a map in it its text. -/
theorem Source.text?_parameters_of_holdsMap (h : v.HoldsMap) :
    Source.parameters.text? v = some v.text := by
  cases h <;> rfl

theorem Source.eq_text_of_text? {t : Text} (h : source.text? v = some t) :
    t = v.text ∧ (v.HoldsMap → source = .parameters) := by
  constructor
  · cases source with
    | locals | attributes => exact (text_of_scalarText? h).2.symm
    | parameters => cases v <;> cases h <;> rfl
  · intro hmap
    by_contra hsource
    rw [Source.text?_of_holdsMap hmap hsource] at h
    cases h

/-! ### What is emitted -/

/-- A variable that is not known is left to the deployment. -/
theorem exists_call_of_pending {text : Text} (h : .token name ∈ scan text)
    (hvariable : ¬ isEscape name = true) (hnone : lookup d locals name = none) :
    ∃ left, substitute d locals text = .call Intrinsic.sub left := by
  obtain ⟨hnil, -⟩ | ⟨-, -, heq⟩ | ⟨-, -, heq⟩ := substitute_cases d locals text
  · exact absurd hnil (List.ne_nil_of_mem (mem_pending h hvariable hnone))
  · exact ⟨_, heq⟩
  · exact ⟨_, heq⟩

/-- **Where maps become text.**  Take a substitution with or without local variables.  It comes to a
text or leaves a call, with something in the place of each token.

Let a map stand in a value to which the name of a token is bound.  If this is a local variable or an
attribute, then the token stays and the call is left to the deployment, with the local variable if
it is one.  If it is a parameter, then its text takes the place of the token, and the text of a map
is in it.  Apart from that no map is shown: what stands for a token is the token itself, the text of
a pseudo-parameter or the text of a value in which there is no map.  The token of an escape stays,
with or without its mark. -/
theorem evalSub_shows_maps_of_parameters {argument : Value} {text : Text}
    (h : textAndLocals? argument = some (text, locals)) :
    ∃ outcome shown needed, Intrinsic.evalSub d argument = .ok outcome ∧
      Leaves outcome ((scan text).flatMap (Piece.shownBy shown)) needed ∧
      ∀ name, .token name ∈ scan text →
        (isEscape name = true →
          shown name = tokenText name ∨ shown name = tokenText (name.drop 1)) ∧
        (¬ isEscape name = true →
          (∀ source v, Binds d locals name source v → v.HoldsMap →
            (source ≠ .parameters → shown name = tokenText name ∧
              needed.get? name = locals.get? name ∧
              ∃ left, outcome = .value (.call Intrinsic.sub left)) ∧
            (source = .parameters → shown name = v.text ∧
              ∃ entries, (Value.map entries).text <:+: shown name)) ∧
          (shown name = tokenText name ∨ d.pseudo.get? name = some (shown name) ∨
            ∃ source v, Binds d locals name source v ∧ shown name = v.text ∧
              (v.HoldsMap → source = .parameters))) := by
  obtain ⟨needed, hleaves, hneeded⟩ := exists_leaves_substitute d locals text
  let final := (pending d locals (scan text)).isEmpty
  let shown (name : Text) : Text := renderPiece d locals final (.token name)
  have hshown : Piece.shownBy shown = renderPiece d locals final := by
    funext piece
    cases piece <;> rfl
  refine ⟨_, shown, needed, evalSub_of_textAndLocals h, hshown ▸ hleaves, fun name htoken =>
    ⟨fun hescape => renderPiece_of_isEscape hescape final, fun hvariable => ?_⟩⟩
  have hrendered : shown name = (lookup d locals name).getD (tokenText name) :=
    renderPiece_of_not_isEscape hvariable final
  refine ⟨fun source v hbinds hmap => ⟨fun hsource => ?stays, ?written⟩, ?shown⟩
  case stays =>
    have hnone := hbinds.lookup_eq.trans (Source.text?_of_holdsMap hmap hsource)
    obtain ⟨left, hleft⟩ := exists_call_of_pending htoken hvariable hnone
    rw [hnone] at hrendered
    exact ⟨hrendered, hneeded name (mem_pending htoken hvariable hnone), left,
      congrArg Outcome.value hleft⟩
  case written =>
    rintro rfl
    rw [hbinds.lookup_eq, Source.text?_parameters_of_holdsMap hmap, Option.getD_some] at hrendered
    exact ⟨hrendered, hrendered ▸ hmap.exists_infix_text⟩
  case shown =>
    cases hlookup : lookup d locals name with
    | none =>
      rw [hlookup] at hrendered
      exact .inl hrendered
    | some t =>
      rw [hlookup, Option.getD_some] at hrendered
      rw [hrendered]
      refine .inr ((exists_binds_of_lookup hlookup).imp_right ?_)
      rintro ⟨source, v, hbinds, ht⟩
      exact ⟨source, v, hbinds, Source.eq_text_of_text? ht⟩

/-- A local variable waits for the deployment, and a parameter holds a list with a map in it. -/
theorem evalSub_shows_maps_of_parameters_of_two_variables :
    let d := ({} : Deployment).setParameter "Zones" (.list [.string "a", .noValueRef])
    let host : Value := .call Intrinsic.getAtt (.ofStrings ["Db", "Host"])
    let locals : Fields Value := [("Host", host)]
    let argument : Value := .list [.string "$\x7bHost\x7d in $\x7bZones\x7d", .map locals]
    let left : Value :=
      .list [.string "$\x7bHost\x7d in a,\x7b'Ref': 'AWS::NoValue'\x7d", .map locals]
    Intrinsic.evalSub d argument = .ok (.value (.call Intrinsic.sub left)) ∧
      ∃ (shown : Text → Text) (needed : Fields Value),
        shown "Host" = tokenText "Host" ∧ needed.get? "Host" = some host ∧
        ∃ entries, (Value.map entries).text <:+: shown "Zones" := by
  intro d host locals argument left
  have hleft : Intrinsic.evalSub d argument = .ok (.value (.call Intrinsic.sub left)) := by
    decide
  have hargument : textAndLocals? argument = some (_, locals) := rfl
  obtain ⟨_, shown, needed, -, -, htokens⟩ := evalSub_shows_maps_of_parameters (d := d) hargument
  obtain ⟨hhost, -⟩ := (htokens "Host" (by decide)).2 (by decide)
  obtain ⟨hzones, -⟩ := (htokens "Zones" (by decide)).2 (by decide)
  obtain ⟨hstays, -⟩ := hhost .locals host (.locals (by decide)) (.map _)
  obtain ⟨-, hwritten⟩ := hzones .parameters (.list [.string "a", .noValueRef])
    (.parameters (by decide) (by decide) (by decide) (by decide))
    (.item (List.mem_cons_of_mem _ List.mem_cons_self) (.map _))
  obtain ⟨htoken, hneeded, -⟩ := hstays (by decide)
  exact ⟨hleft, shown, needed, htoken, hneeded.trans (by decide), (hwritten rfl).2⟩

/-- The same map stays for the deployment as a local variable and as an attribute, and becomes text
as a parameter, be it by itself or in a list. -/
theorem evalSub_writes_out_maps :
    let name : Text := "Port"
    let port : Value := .call Intrinsic.ref (.string "X")
    let ports : Value := .list [.string "a", .list [port]]
    let text : Text := tokenText name
    let written (d : Deployment) (t : Text) : Prop :=
      Intrinsic.evalSub d (.string text) = .ok (.value (.string t))
    let d := ({} : Deployment).setParameter name port
    let d' := ({} : Deployment).setParameter name ports
    (Binds d [] name .parameters port ∧ port.HoldsMap ∧ written d "\x7b'Ref': 'X'\x7d") ∧
      (Binds d' [] name .parameters ports ∧ ports.HoldsMap ∧
        written d' "a,\x7b'Ref': 'X'\x7d") ∧
      Intrinsic.evalSub {} (.list [.string text, .map [(name, port)]]) =
        .ok (.value (.call Intrinsic.sub (.list [.string text, .map [(name, port)]]))) ∧
      Intrinsic.evalSub (({} : Deployment).setAttribute "Db" name port)
          (.string (tokenText "Db.Port")) =
        .ok (.value (.call Intrinsic.sub (.string (tokenText "Db.Port")))) := by
  intro name port ports text written d d'
  have hbinds {v : Value} :
      Binds (({} : Deployment).setParameter name v) [] name .parameters v :=
    .parameters rfl (by decide) rfl rfl
  exact ⟨⟨hbinds, .map _, by decide⟩,
    ⟨hbinds, .item (List.mem_cons_of_mem _ List.mem_cons_self) (.item List.mem_cons_self (.map _)),
      by decide⟩, by decide, by decide⟩

end Substitution

end CloudTemplate
