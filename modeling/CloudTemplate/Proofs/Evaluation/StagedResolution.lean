import CloudTemplate.Proofs.Evaluation.StagedCalls

/-!
# Resolution in stages

A value is resolved as far as it is known what it needs; what is left is resolved again when more is
known.  That gives what resolving the original value then gives, provided that

* no map with several entries has an entry with the name of a function,
* nothing that is known holds calls or dollar signs, and in the value dollar signs stand in tokens
  only, and
* no call that is not evaluated yet is taken for the local variables of a text that needs them.

The last condition is needed: a substitution takes every map for local variables, and when the text
is rendered those entries are dropped for which no variable asks.  A conditional that would have
given the local variables is lost that way (`Expander.resolve_staged_fails_of_mistaken_locals`), and
a substitution that has lost them gives later what its text alone gives (`Dispatch.staged_sub_iff`).
Where local variables are written out, nothing is lost (`Dispatch.not_mistakesLocals`).

## Main results

* `Dispatch.reduce_staged`: evaluation in two stages, without locations.
* `Dispatch.reduce_kept`: evaluation is idempotent.
* `Expander.resolve_staged`: resolution in two stages.
-/

namespace CloudTemplate

namespace Intrinsic.Dispatch

variable {d d' : Deployment}

theorem staged_atom {v : Value} (h : v.isAtom = true) : Staged d d' v := by
  intro outcome later hok hlater
  rw [reduce_atom h] at hok
  exact Except.ok.inj hok ▸ hlater

/-- What is left of a conditional gives later what the conditional gives later. -/
theorem reduce_staged_of_evalIf (hd : d.GrowsTo d') {argument : Value}
    (h : (∀ items, argument ≠ .list items) → Staged d d' argument)
    (hitems : ∀ items, argument = .list items → ∀ v ∈ items, Staged d d' v)
    (hcleared : ∀ outcome, standard.reduce d' argument = .ok outcome → outcome.Clears d')
    (hclearedItems : ∀ items, argument = .list items → ∀ v ∈ items, ∀ outcome,
      standard.reduce d' v = .ok outcome → outcome.Clears d')
    {evaluated evaluated' : Value} {outcome later : Outcome}
    (hevaluated : standard.reduceArgument d ifElse argument = .ok evaluated)
    (heval : evalIf d evaluated = .ok outcome)
    (hevaluated' : standard.reduceArgument d' ifElse argument = .ok evaluated')
    (heval' : evalIf d' evaluated' = .ok later) :
    standard.reduce d' outcome.kept = .ok later := by
  obtain ⟨name, whenTrue, whenFalse, rfl, hcases⟩ := evalIf_cases heval
  obtain ⟨name', whenTrue', whenFalse', rfl, -⟩ := evalIf_cases heval'
  obtain ⟨left, hleft, hparts, hclearedLeft⟩ := reduceBranches_staged h hitems hcleared
    hclearedItems hevaluated hevaluated' rfl
  rw [hparts] at heval'
  rcases hcases with ⟨-, rfl⟩ | ⟨b, hb, rfl⟩
  · refine (reduce_call_eq_ok (by decide) (by decide)).mpr
      ⟨_, reduceArgument_list_eq_ok.mpr ⟨left, hleft, rfl⟩, ?_⟩
    rw [Outcome.gathered_ifElse]
    exact invoke_of_eval .ifElse (by decide) heval'
  · obtain ⟨first, others, hfirst, hbranches, rfl⟩ := reduceEach_cons_eq_ok.mp hleft
    obtain ⟨ifTrue, others, htrue, hlast, rfl⟩ := reduceEach_cons_eq_ok.mp hbranches
    obtain ⟨ifFalse, others, hfalse, hnone, rfl⟩ := reduceEach_cons_eq_ok.mp hlast
    rw [reduceEach_nil] at hnone
    rw [reduce_atom rfl] at hfirst
    obtain rfl := Except.ok.inj hnone
    obtain rfl := Except.ok.inj hfirst
    simp only [List.forall_mem_cons] at hclearedLeft
    have hselected : later = .ofBranch (if b then ifTrue.kept else ifFalse.kept) :=
      Except.ok.inj (heval'.symm.trans (evalIf_of_known (hd.conditions hb) _ _))
    rw [Outcome.kept_ofBranch, hselected]
    cases b with
    | true =>
      rw [if_pos rfl, if_pos rfl, hclearedLeft.2.1.ofBranch_kept]
      exact htrue
    | false =>
      rw [if_neg Bool.false_ne_true, if_neg Bool.false_ne_true, hclearedLeft.2.2.1.ofBranch_kept]
      exact hfalse

/-- What is left of a call gives later what the call gives later, if this holds of its argument. -/
theorem staged_call (hd : d.GrowsTo d') (hplain : d'.IsPlain) {function : Text} {argument : Value}
    (hname : isName function = true) (hdeferred : isDeferred function = false)
    (h : (∀ items, argument ≠ .list items) → Staged d d' argument)
    (hitems : ∀ items, argument = .list items → ∀ v ∈ items, Staged d d' v)
    (hmixed : ∀ n ∈ argument.nodes, n.isMixed = false) {nested : Bool}
    (htokenized : (Value.call function argument).isTokenized nested = true)
    (hmistakes : ¬ MistakesLocals d d' (.call function argument)) :
    Staged d d' (.call function argument) := by
  intro outcome later hok hlater
  obtain ⟨evaluated, hevaluated, hinvoke⟩ := (reduce_call_eq_ok hname hdeferred).mp hok
  obtain ⟨evaluated', hevaluated', hinvoke'⟩ := (reduce_call_eq_ok hname hdeferred).mp hlater
  by_cases hif : function = ifElse
  · subst hif
    have hcalls := hplain.holdsNoCalls
    refine reduce_staged_of_evalIf hd h hitems (fun outcome => clears_reduce hcalls hmixed) ?_
      hevaluated (eval_of_invoke .ifElse (by decide) hinvoke) hevaluated'
      (eval_of_invoke .ifElse (by decide) hinvoke')
    rintro items rfl v hv outcome
    exact clears_reduce hcalls fun n hn =>
      hmixed n (Value.nodes_subset_list hv hn)
  · have hsub : function = sub → Value.IsSubArgument nested evaluated := by
      rintro rfl
      have hmistakesArgument : ¬ MistakesLocals d d' argument := fun h =>
        hmistakes (.entry List.mem_cons_self hdeferred h)
      refine isSubArgument_of_reduceArgument (isTokenized_reduce (hd.isPlain hplain)
        hmistakesArgument) ?_ (Value.isTokenized_sub.mp htokenized) hevaluated
      rintro items rfl v hv
      exact isTokenized_reduce (hd.isPlain hplain) fun h => hmistakesArgument (.item hv h)
    refine reduce_staged_of_invoked hd hplain hname hdeferred hif
      (reduceArgument_staged hif h hitems hevaluated hevaluated') (invoked_of_invoke hinvoke)
      hinvoke' hsub ?_
    rintro text locals rfl rfl
    rw [← hlater]
    exact (isName_or_unasked hmistakes hevaluated).imp_right fun ⟨hunasked, halone⟩ =>
      ⟨hunasked, halone.symm⟩

/-- **Evaluation in two stages.**  What is left of a value when it is evaluated gives later what the
value gives later. -/
theorem reduce_staged (hd : d.GrowsTo d') (hplain : d'.IsPlain) {v : Value} {nested : Bool}
    (hmixed : ∀ n ∈ v.nodes, n.isMixed = false) (htokenized : v.isTokenized nested = true)
    (hmistakes : ¬ MistakesLocals d d' v) : Staged d d' v := by
  induction v using Value.induction generalizing nested with
  | atom v hv => exact staged_atom hv
  | list items ih =>
    intro outcome later hok hlater
    obtain ⟨outcomes, heach, rfl⟩ := reduce_list_eq_ok.mp hok
    obtain ⟨outcomes', heach', rfl⟩ := reduce_list_eq_ok.mp hlater
    have hitems : ∀ v ∈ items, Staged d d' v := fun v hv =>
      ih v hv (fun n hn => hmixed n (Value.nodes_subset_list hv hn))
        (Value.isTokenized_list.mp htokenized v hv) fun h => hmistakes (.item hv h)
    obtain ⟨-, left, hleft, hsame⟩ := reduceEach_staged hitems heach heach'
    exact reduce_list_eq_ok.mpr ⟨left, hleft, by rw [hsame]⟩
  | plain entries hcall ih =>
    intro outcome later hok hlater
    obtain ⟨outcomes, hnamed, rfl⟩ := (reduce_plain_eq_ok hcall).mp hok
    obtain ⟨outcomes', hnamed', rfl⟩ := (reduce_plain_eq_ok hcall).mp hlater
    have hnames := Value.not_isName_of_plain hcall (hmixed _ (Value.mem_nodes_self _))
    have hvalues := (Value.isTokenized_plain hcall).mp htokenized
    have hentries : ∀ entry ∈ entries, Staged d d' entry.2 := fun entry hentry =>
      ih entry hentry (fun n hn => hmixed n (Value.nodes_subset_map hentry hn))
        (hvalues entry hentry)
        fun h => hmistakes (.entry hentry (Value.isDeferredCall_of_plain hcall) h)
    obtain ⟨left, hleft, hsame⟩ := reduceNamed_staged hentries hnamed hnamed'
    have hleftCall := Value.call?_of_not_isName (not_isName_of_reduceNamed hnames hnamed)
    exact (reduce_plain_eq_ok hleftCall).mpr ⟨left, hleft, by rw [hsame]⟩
  | call function argument hname ih ihs =>
    intro outcome later hok hlater
    cases hdeferred : isDeferred function with
    | true =>
      rw [reduce_deferred hname hdeferred] at hok
      exact Except.ok.inj hok ▸ hlater
    | false =>
      have hmixedArgument : ∀ n ∈ argument.nodes, n.isMixed = false := fun n hn =>
        hmixed n (Value.nodes_subset_call hn)
      have hmistakesArgument : ¬ MistakesLocals d d' argument := fun h =>
        hmistakes (.entry List.mem_cons_self hdeferred h)
      obtain ⟨hargument, hitems⟩ := Value.isTokenized_or_isAtom_of_call htokenized
      refine staged_call hd hplain hname hdeferred (fun hlist => ?_) ?_ hmixedArgument htokenized
        hmistakes outcome later hok hlater
      · rcases hargument hlist with hatom | ⟨inside, hinside⟩
        · exact staged_atom hatom
        · exact ih hmixedArgument hinside hmistakesArgument
      · rintro items rfl v hv
        rcases hitems items rfl v hv with hatom | ⟨inside, hinside⟩
        · exact staged_atom hatom
        · exact ihs items rfl v hv
            (fun n hn => hmixedArgument n (Value.nodes_subset_list hv hn)) hinside
            fun h => hmistakesArgument (.item hv h)

/-- **Evaluation is idempotent.**  What is left of a value is left as it is when it is evaluated
again and nothing more is known. -/
theorem reduce_kept (hplain : d.IsPlain) {v : Value} {nested : Bool}
    (hmixed : ∀ n ∈ v.nodes, n.isMixed = false) (htokenized : v.isTokenized nested = true)
    (hmistakes : ¬ MistakesLocals d d v) {outcome : Outcome}
    (hok : standard.reduce d v = .ok outcome) : standard.reduce d outcome.kept = .ok outcome :=
  reduce_staged (.refl d) hplain hmixed htokenized hmistakes outcome outcome hok hok

end Intrinsic.Dispatch

/-! ### Local variables that are written out -/

/-- Whether a value, if it is a substitution, has no local variables or has a map without the names
of functions for them. -/
def Value.hasLiteralLocals : Value → Bool
  | .map [(name, argument)] =>
    name ≠ Intrinsic.sub ||
      match argument with
      | .string _ => true
      | .list [_, .map locals] => locals.all fun entry => !Intrinsic.isName entry.1
      | _ => false
  | _ => true

namespace Intrinsic.Dispatch

variable {d d' : Deployment}

/-- A call that is taken for local variables is that in the argument of some substitution. -/
theorem exists_sub_of_mistakesLocals {v : Value} (h : MistakesLocals d d' v) :
    ∃ argument, .call sub argument ∈ v.nodes ∧ ∃ text locals,
      standard.reduceArgument d sub argument = .ok (.list [.string text, .map locals]) ∧
        ∃ entry ∈ locals, isName entry.1 = true := by
  induction h with
  | here hok hname => exact ⟨_, Value.mem_nodes_self _, _, _, hok, hname⟩
  | item hv _ ih =>
    obtain ⟨argument, hmem, hmistake⟩ := ih
    exact ⟨argument, Value.nodes_subset_list hv hmem, hmistake⟩
  | entry hentry _ _ ih =>
    obtain ⟨argument, hmem, hmistake⟩ := ih
    exact ⟨argument, Value.nodes_subset_map hentry hmem, hmistake⟩

/-- Local variables that are written out are evaluated one by one. -/
theorem not_isName_of_literalLocals {first : Value} {literal locals : List (Text × Value)}
    {text : Text} (hnames : ∀ entry ∈ literal, isName entry.1 = false)
    (hok : standard.reduceArgument d sub (.list [first, .map literal]) =
      .ok (.list [.string text, .map locals])) : ∀ entry ∈ locals, isName entry.1 = false := by
  obtain ⟨outcomes, heach, hgathered⟩ := reduceArgument_list_eq_ok.mp hok
  obtain ⟨outcome, others, -, hothers, rfl⟩ := reduceEach_cons_eq_ok.mp heach
  obtain ⟨outcome', rest, hlocals, hrest, rfl⟩ := reduceEach_cons_eq_ok.mp hothers
  obtain ⟨named, hnamed, rfl⟩ := (reduce_plain_eq_ok (Value.call?_of_not_isName hnames)).mp hlocals
  rw [reduceEach_nil] at hrest
  obtain rfl := Except.ok.inj hrest
  rw [Outcome.gathered_of_ne (by decide)] at hgathered
  have hitems : outcome.item ++ [Value.map (Outcome.entries named)] =
      [.string text] ++ [.map locals] := (Value.list.inj hgathered).symm
  have hsame : Value.map (Outcome.entries named) = .map locals :=
    List.singleton_inj.mp (List.append_inj_right' hitems rfl)
  rw [← Value.map.inj hsame]
  exact not_isName_of_reduceNamed hnames hnamed

/-- If local variables are written out, no call is taken for them. -/
theorem not_mistakesLocals {v : Value} (h : ∀ n ∈ v.nodes, n.hasLiteralLocals = true) :
    ¬ MistakesLocals d d' v := by
  intro hmistakes
  obtain ⟨argument, hmem, text, locals, hok, entry, hentry, hname⟩ :=
    exists_sub_of_mistakesLocals hmistakes
  have hliteral := h _ hmem
  simp only [Value.call, Value.hasLiteralLocals, ne_eq, not_true_eq_false, decide_false,
    Bool.false_or] at hliteral
  split at hliteral
  · rw [reduceArgument_string] at hok
    cases hok
  · next first literal =>
    have hnames : ∀ entry ∈ literal, isName entry.1 = false := by simpa using hliteral
    exact absurd hname (Bool.eq_false_iff.mp (not_isName_of_literalLocals hnames hok entry hentry))
  · cases hliteral

end Intrinsic.Dispatch

namespace Expander

variable {e e' : Expander}

/-- **Resolution in two stages.**  Take two expanders with the standard table, without new names and
placeholders, such that all that the first knows is known to the second.  Let a value hold no mixed
maps, and dollar signs in tokens only, and let nothing that is known hold calls or dollar signs.  If
no call is taken for local variables that matter later, then what the first expander leaves of the
value resolves for the second to what the value itself resolves to, and if the first leaves nothing
then neither does the second. -/
theorem resolve_staged (h : e.IsStandard) (h' : e'.IsStandard)
    (hd : e.deployment.GrowsTo e'.deployment) (hplain : e'.deployment.IsPlain) {v : Value}
    (hmixed : ∀ n ∈ v.nodes, n.isMixed = false) (htokenized : v.isTokenized false = true)
    (hmistakes : ¬ Intrinsic.Dispatch.MistakesLocals e.deployment e'.deployment v) {l l' : Location}
    {outcome later : Outcome} (hok : (e.resolve v l).1 = .ok outcome)
    (hlater : (e'.resolve v l').1 = .ok later) :
    (∀ w, outcome = .value w → ∀ place, (e'.resolve w place).1 = .ok later) ∧
      (outcome = .noValue → later = .noValue) := by
  rw [resolve_eq_ok_iff h] at hok
  rw [resolve_eq_ok_iff h'] at hlater
  have hleft := Intrinsic.Dispatch.reduce_staged hd hplain hmixed htokenized hmistakes outcome later
    hok hlater
  constructor
  · rintro w rfl place
    rw [resolve_eq_ok_iff h']
    exact hleft
  · rintro rfl
    exact (Except.ok.inj (Intrinsic.Dispatch.reduce_noValueRef.symm.trans hleft)).symm

/-- A condition is known at first, and the value of a parameter later.  An entry disappears, and a
text loses one variable after the other. -/
theorem resolve_staged_of_two_variables :
    let text (s : Text) : Value := .call Intrinsic.sub (.string s)
    let conditional (ifTrue ifFalse : Value) : Value :=
      .call Intrinsic.ifElse (.list [.string "Big", ifTrue, ifFalse])
    let size : Value := .map [("Size", conditional (.string "large") (.string "small"))]
    let v : Value := .map
      [("Name", .call Intrinsic.sub (.list [.string "$\x7bSize\x7d-$\x7bStage\x7d", size])),
        ("Retained", conditional .noValueRef (.string "no"))]
    let w : Value := .map [("Name", text "large-$\x7bStage\x7d")]
    let e : Expander := { deployment := ({} : Deployment).setCondition "Big" true }
    let e' : Expander := { deployment := e.deployment.setParameter "Stage" (.string "test") }
    (e.resolve v ⟨""⟩).1 = .ok (.value w) ∧
      (e'.resolve v ⟨""⟩).1 = .ok (.value (.map [("Name", .string "large-test")])) ∧
      (e'.resolve w ⟨""⟩).1 = .ok (.value (.map [("Name", .string "large-test")])) := by
  intro text conditional size v w e e'
  have hok : (e.resolve v ⟨""⟩).1 = .ok (.value w) := by decide +kernel
  have hlater : (e'.resolve v ⟨""⟩).1 =
      .ok (.value (.map [("Name", .string "large-test")])) := by decide +kernel
  have hplain : e'.deployment.IsPlain :=
    (Deployment.isPlain_default.setCondition "Big" true).setParameter "Stage" (by decide)
      (by decide)
  have hstaged := resolve_staged ⟨rfl, rfl, rfl⟩ ⟨rfl, rfl, rfl⟩
    (Deployment.growsTo_setParameter rfl (.string "test")) hplain (by decide +kernel)
    (by decide +kernel) (Intrinsic.Dispatch.not_mistakesLocals (by decide +kernel)) hok
    hlater
  exact ⟨hok, hlater, hstaged.1 w rfl ⟨""⟩⟩

/-- The local variables of a text are given by a conditional that is not decided at first.  What is
left is the text alone, which gives nothing else when the conditional is decided. -/
theorem resolve_staged_fails_of_mistaken_locals :
    let text : Value := .string "$\x7bSize\x7d"
    let size (s : Text) : Value := .map [("Size", .string s)]
    let conditional : Value :=
      .call Intrinsic.ifElse (.list [.string "Big", size "large", size "small"])
    let v : Value := .call Intrinsic.sub (.list [text, conditional])
    let e : Expander := {}
    let e' : Expander := { deployment := e.deployment.setCondition "Big" true }
    e.IsStandard ∧ e'.IsStandard ∧ e.deployment.GrowsTo e'.deployment ∧ e'.deployment.IsPlain ∧
      (∀ n ∈ v.nodes, n.isMixed = false) ∧ v.isTokenized false = true ∧
      (e.resolve v ⟨""⟩).1 = .ok (.value (.call Intrinsic.sub text)) ∧
      (e'.resolve v ⟨""⟩).1 = .ok (.value (.string "large")) ∧
      (e'.resolve (.call Intrinsic.sub text) ⟨""⟩).1 =
        .ok (.value (.call Intrinsic.sub text)) := by
  intro text size conditional v e e'
  refine ⟨⟨rfl, rfl, rfl⟩, ⟨rfl, rfl, rfl⟩, Deployment.growsTo_setCondition rfl true,
    Deployment.isPlain_default.setCondition "Big" true, ?mixed, ?tokenized, ?first, ?later, ?left⟩
  all_goals decide +kernel

end Expander

end CloudTemplate
