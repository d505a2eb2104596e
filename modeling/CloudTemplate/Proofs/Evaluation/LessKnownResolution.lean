import CloudTemplate.Proofs.Evaluation.LessKnownArguments
import CloudTemplate.Proofs.Evaluation.StagedResolution

/-!
# Resolution when less is known

Whether knowing less turns success into failure depends on the arguments of calls only: if nothing
but what is written out stands where functions want to know their arguments
(`Value.hasLiteralParts`), what resolves when more is known resolves now.

## Main results

* `Expander.resolve_succeeds_when_less_is_known`: what resolves when more is known resolves now,
  unless some call hinges on what is known later only.
* `Expander.resolve_fails_when_less_is_known`: calls that do hinge on it, and fail.
-/

namespace CloudTemplate

/-! ### Values in which nothing hinges on what is known later -/

namespace Value

/-- Whether a part of an argument gives a value, or none, whatever is known. -/
def keepsPlace : Value → Bool
  | .map [(function, argument)] =>
    !Intrinsic.isName function ||
      (function ≠ Intrinsic.ifElse && (function ≠ Intrinsic.ref || argument.isAtom))
  | _ => true

/-- Whether a value, if it is a call, has no calls where its function wants to know its argument:
not for the whole argument, for the name of an attribute, a text or local variables, for the first
part of a join, conditional or split, or for a part that may disappear where parts are counted. -/
def hasLiteralParts : Value → Bool
  | .map [(function, .list items)] =>
    (!List.contains [Intrinsic.getAtt, Intrinsic.sub] function ||
        items.all fun v => !v.isCall) &&
      (!List.contains [Intrinsic.join, Intrinsic.ifElse, Intrinsic.split] function ||
        items.head?.all isAtom) &&
      (!List.contains [Intrinsic.findInMap, Intrinsic.join, Intrinsic.select, Intrinsic.split]
          function ||
        items.all keepsPlace)
  | .map [(function, argument)] =>
    !Intrinsic.Dispatch.demanding.contains function || argument.isAtom
  | _ => true

theorem isAtom_of_hasLiteralParts {function : Text} {argument : Value}
    (h : (call function argument).hasLiteralParts = true)
    (hf : function ∈ Intrinsic.Dispatch.demanding) (hlist : ∀ items, argument ≠ .list items) :
    argument.isAtom = true := by
  have hread : (!Intrinsic.Dispatch.demanding.contains function || argument.isAtom) = true := by
    cases argument with
    | list items => exact absurd rfl (hlist items)
    | null | bool | int | double | string | map => exact h
  rwa [List.contains_iff_mem.mpr hf, Bool.not_true, Bool.false_or] at hread

/-- What has to be written out in an argument that is a list. -/
theorem hasLiteralParts_list {function : Text} {items : List Value}
    (h : (call function (.list items)).hasLiteralParts = true) :
    (function ∈ [Intrinsic.getAtt, Intrinsic.sub] → ∀ v ∈ items, v.isCall = false) ∧
      (function ∈ [Intrinsic.join, Intrinsic.ifElse, Intrinsic.split] →
        items.head?.all isAtom = true) ∧
      (function ∈ [Intrinsic.findInMap, Intrinsic.join, Intrinsic.select, Intrinsic.split] →
        ∀ v ∈ items, v.keepsPlace = true) := by
  simp only [call, hasLiteralParts, Bool.and_eq_true, Bool.or_eq_true, Bool.not_eq_true',
    List.contains_eq_mem, decide_eq_false_iff_not, List.all_eq_true] at h
  obtain ⟨⟨hparts, hfirst⟩, hcounted⟩ := h
  exact ⟨fun hf => hparts.resolve_left (not_not_intro hf),
    fun hf => hfirst.resolve_left (not_not_intro hf),
    fun hf => hcounted.resolve_left (not_not_intro hf)⟩

end Value

namespace Intrinsic.Dispatch

variable {d d' : Deployment}

theorem alike_of_isAtom {v : Value} (h : v.isAtom = true) : Alike d d' v := by
  intro later hlater
  rw [reduce_atom h] at hlater ⊢
  exact hlater

/-- A part that keeps its place gives no value only if it stands for a missing one. -/
theorem eq_noValueRef_of_keepsPlace {v : Value} (h : v.keepsPlace = true)
    (hmissing : standard.reduce d v = .ok .noValue) : v = .noValueRef := by
  induction v using Value.induction with
  | atom v hv =>
    rw [reduce_atom hv] at hmissing
    cases hmissing
  | list items =>
    obtain ⟨_, -, heq⟩ := reduce_list_eq_ok.mp hmissing
    cases heq
  | plain entries hcall =>
    obtain ⟨_, -, heq⟩ := (reduce_plain_eq_ok hcall).mp hmissing
    cases heq
  | call function argument hname =>
    cases hdeferred : isDeferred function with
    | true =>
      rw [reduce_deferred hname hdeferred] at hmissing
      cases hmissing
    | false =>
      obtain ⟨evaluated, hevaluated, hinvoke⟩ := (reduce_call_eq_ok hname hdeferred).mp hmissing
      simp only [Value.call, Value.keepsPlace, hname, Bool.not_true, Bool.false_or,
        Bool.and_eq_true, decide_eq_true_eq] at h
      generalize houtcome : Outcome.noValue = outcome at hinvoke
      cases invoked_of_invoke hinvoke with
      | noValue =>
        have hatom : argument.isAtom = true := by simpa using h.2
        have hlist : ∀ items, argument ≠ .list items := by
          rintro items rfl
          cases hatom
        obtain ⟨_, hreduce, hkept⟩ := (reduceArgument_eq_ok hlist).mp hevaluated
        rw [reduce_atom hatom] at hreduce
        rw [← Except.ok.inj hreduce, Outcome.kept] at hkept
        rw [← hkept, Value.noValueRef]
      | branch => exact absurd rfl h.1
      | kept | pseudo | parameter | attributeKnown | attributeKept | mapping | condition | text
      | textWithLocals => cases houtcome

theorem not_hingesHere_of_hasLiteralParts {function : Text} {argument : Value}
    (h : (Value.call function argument).hasLiteralParts = true) :
    ¬ HingesHere d d' function argument := by
  intro hhinges
  cases hhinges with
  | argument hf hlist hunlike =>
    exact hunlike (alike_of_isAtom (Value.isAtom_of_hasLiteralParts h hf hlist))
  | part hf hv hcall =>
    have hliteral := (Value.hasLiteralParts_list h).1 hf _ hv
    rw [hcall] at hliteral
    cases hliteral
  | @first before after v hf hbefore hunlike =>
    have hliteral := (Value.hasLiteralParts_list h).2.1 hf
    cases before with
    | nil => exact hunlike (alike_of_isAtom hliteral)
    | cons u rest =>
      have hmissing := hbefore u List.mem_cons_self
      rw [reduce_atom hliteral] at hmissing
      cases hmissing
  | count hf hv hmissing hunlike =>
    have hkeeps := (Value.hasLiteralParts_list h).2.2 hf _ hv
    obtain rfl := eq_noValueRef_of_keepsPlace hkeeps hmissing
    refine hunlike fun later hlater => ?_
    rw [← hlater, reduce_noValueRef, reduce_noValueRef]

/-- If arguments are written out where functions want to know them, no call hinges on anything. -/
theorem not_hinges {v : Value} (h : ∀ n ∈ v.nodes, n.hasLiteralParts = true) :
    ¬ Hinges d d' v := by
  intro hhinges
  induction hhinges with
  | here _ _ hhere => exact not_hingesHere_of_hasLiteralParts (h _ (Value.mem_nodes_self _)) hhere
  | item hv _ ih => exact ih fun n hn => h n (Value.nodes_subset_list hv hn)
  | entry hentry _ _ ih => exact ih fun n hn => h n (Value.nodes_subset_map hentry hn)

end Intrinsic.Dispatch

namespace Expander

variable {e e' : Expander}

/-- **What resolves when more is known resolves now.**  Take two expanders with the standard table,
without new names and placeholders, such that all that the first knows is known to the second, and
all aliases of the second are among those of the first.  If the second resolves a value in which no
call hinges on something that the second alone knows, then the first resolves it, too.  If the first
gives an atom or no value, the second gives the same, and where the first gives a list, so does the
second; but a map may stand for anything that is not known yet. -/
theorem resolve_succeeds_when_less_is_known (h : e.IsStandard) (h' : e'.IsStandard)
    (hd : e.deployment.GrowsTo e'.deployment)
    (haliases : ∀ name ∈ e'.deployment.aliases, name ∈ e.deployment.aliases) {v : Value}
    (hhinges : ¬ Intrinsic.Dispatch.Hinges e.deployment e'.deployment v) {l l' : Location}
    {later : Outcome} (hok : (e'.resolve v l').1 = .ok later) :
    ∃ outcome, (e.resolve v l).1 = .ok outcome ∧ outcome.Below later := by
  have hdeclared : ∀ name, e'.deployment.declaresResource name = true →
      e.deployment.declaresResource name = true := by
    intro name hname
    rw [Deployment.declaresResource, Bool.or_eq_true, decide_eq_true_eq] at hname ⊢
    rw [← hd.template]
    exact hname.imp_left (haliases name)
  rw [resolve_eq_ok_iff h'] at hok
  obtain ⟨outcome, houtcome, hbelow⟩ :=
    (Intrinsic.Dispatch.succeedsBelow hd hdeclared hhinges).1 later hok
  exact ⟨outcome, (resolve_eq_ok_iff h).mpr houtcome, hbelow⟩

/-- The value of a parameter becomes known on which a text and the parts of a join and of a split
depend. -/
theorem resolve_succeeds_when_less_is_known_of_stage :
    let stage : Value := .call Intrinsic.ref (.string "Stage")
    let conditional : Value :=
      .call Intrinsic.ifElse (.list [.string "Big", .string "large", .noValueRef])
    let text : Value := .call Intrinsic.sub
      (.list [.string "${Size}-${Stage}", .map [("Size", conditional)]])
    let joined : Value := .call Intrinsic.join (.list [.string "/", .list [stage, text]])
    let selected : Value := .call Intrinsic.select
      (.list [stage, .call Intrinsic.split (.list [.string "-", stage])])
    let v : Value := .map [("Joined", joined), ("Selected", selected)]
    let e : Expander := {}
    let e' : Expander := { deployment := e.deployment.setParameter "Stage" (.string "0") }
    (e'.resolve v ⟨""⟩).1.isOk = true ∧
      ∃ outcome, (e.resolve v ⟨""⟩).1 = .ok outcome := by
  intro stage conditional text joined selected v e e'
  have hliteral : ∀ n ∈ v.nodes, n.hasLiteralParts = true := by decide +kernel
  have hgrows : e.deployment.GrowsTo e'.deployment :=
    Deployment.growsTo_setParameter rfl (.string "0")
  cases hok : (e'.resolve v ⟨""⟩).1 with
  | error error =>
    have : (e'.resolve v ⟨""⟩).1.isOk = true := by decide +kernel
    rw [hok] at this
    cases this
  | ok later =>
    obtain ⟨outcome, houtcome, -⟩ := resolve_succeeds_when_less_is_known ⟨rfl, rfl, rfl⟩
      ⟨rfl, rfl, rfl⟩ hgrows (fun _ => id) (Intrinsic.Dispatch.not_hinges hliteral) hok
    exact ⟨rfl, outcome, houtcome⟩

/-- In each of these calls something that is known later only stands where the function wants a
string, an array or a number of parts.  The calls resolve later, and fail before. -/
theorem resolve_fails_when_less_is_known :
    let reference (name : Text) : Value := .call Intrinsic.ref (.string name)
    let name := reference "Name"
    let conditional : Value :=
      .call Intrinsic.ifElse (.list [.string "Big", .noValueRef, .string "x"])
    let array : Value := .list [.string "x"]
    let text : Value := .call Intrinsic.sub (.list [.string "${Ref}", reference "Locals"])
    let t : Template := { resources := some [("Db", .map [])] }
    let e : Expander := { deployment := .ofTemplate (some t) }
    let parameters : Fields Value :=
      [("Name", .string "Port"), ("Parts", .list [.string "-", array]),
        ("Locals", .map [("Other", .string "x")])]
    let e' : Expander :=
      { deployment := { e.deployment with parameters, conditions := [("Big", true)] } }
    e.IsStandard ∧ e'.IsStandard ∧ e.deployment.GrowsTo e'.deployment ∧
      e'.deployment.aliases = e.deployment.aliases ∧
      ∀ v ∈ ([.call Intrinsic.getAtt (.list [.string "Db", name]), .call Intrinsic.ref name,
          .call Intrinsic.condition name, .call Intrinsic.join (reference "Parts"),
          .call Intrinsic.join (.list [name, array]),
          .call Intrinsic.join (.list [.string "-", array, conditional]),
          .call Intrinsic.select (.list [.string "0", array, conditional]),
          .call Intrinsic.ifElse (.list [name, .string "x", .string "y"]),
          .call Intrinsic.split (.list [name, .string "x"]),
          .call Intrinsic.sub name, .call Intrinsic.sub (.list [name, .map []]),
          .call Intrinsic.join (.list [.string "-", text])] : List Value),
        (e'.resolve v ⟨""⟩).1.isOk = true ∧ (e.resolve v ⟨""⟩).1.isOk = false := by
  intro reference name conditional array text t e parameters e'
  refine ⟨⟨rfl, rfl, rfl⟩, ⟨rfl, rfl, rfl⟩, ⟨rfl, fun _ => rfl, nofun, id, nofun⟩, rfl, ?_⟩
  decide +kernel

end Expander

end CloudTemplate
