import Mathlib.Control.Monad.Basic
import CloudTemplate.Proofs.Evaluation.CallFree
import CloudTemplate.Proofs.Value.Enclosure

/-!
# Where a missing value leaves a trace

A call without a value disappears from the list or the map that holds it.  Two places cannot
disappear: a branch of a conditional, which is found by its position, and the whole argument of a
call.  There the reference to `AWS::NoValue` stands for the missing value.

`Enclosure.KeepsPlace` tells these places apart from all others, and a value is *cleared* if such
references are only in them.  There is one lemma for each kind of node that a cleared value is made
of; every evaluation clears (`Dispatch.IsBuiltIn.clears_reduce`), as long as nothing that is known
holds calls and no map is mixed.  Calls that are left to the deployment are not looked into, neither
by an evaluation nor by an enclosure.

## Main results

* `Dispatch.IsBuiltIn.clears_reduce`: what a value evaluates to is cleared.
* `Expander.keepsPlace_of_resolve`: the same for what a value is resolved to.
-/

namespace CloudTemplate

open Intrinsic (isName isDeferred call? ifElse)

/-! ### Places that are kept -/

/-- Around a branch of a conditional that is not decided: the parts before and after it. -/
inductive Deployment.IsOpenBranch (d : Deployment) : List Value → List Value → Prop
  | whenTrue {name : Text} {whenFalse : Value} (h : d.conditions.get? name = none) :
      d.IsOpenBranch [.string name] [whenFalse]
  | whenFalse {name : Text} {whenTrue : Value} (h : d.conditions.get? name = none) :
      d.IsOpenBranch [.string name, whenTrue] []

namespace Enclosure

variable {d : Deployment}

/-- Whether the hole is a place that stays without a value: a branch of a conditional that is not
decided, or the whole argument of a call of another function. -/
def KeepsPlace (d : Deployment) : Enclosure → Prop
  | hole => False
  | argument function hole _ _ => function ≠ ifElse
  | argument function (item before hole after) _ _ =>
    function = ifElse ∧ d.IsOpenBranch before after
  | item _ inner _ | entry _ _ inner _ _ | argument _ inner _ _ => inner.KeepsPlace d

/-- A place that is kept inside the argument of a call is kept. -/
theorem KeepsPlace.argument {c : Enclosure} (h : c.KeepsPlace d) {function : Text}
    {hname : isName function = true} {hd : isDeferred function = false} :
    (Enclosure.argument function c hname hd).KeepsPlace d := by
  cases c with
  | hole => exact h.elim
  | item before inner after =>
    cases inner with
    | hole => exact h.elim
    | item | entry | argument => exact h
  | entry | argument => exact h

/-- The nodes of what is in the hole are nodes of the whole. -/
theorem mem_nodes_fill_of_mem (c : Enclosure) {n v : Value} (h : n ∈ v.nodes) :
    n ∈ (c.fill v).nodes := by
  induction c with
  | hole => exact h
  | item before inner after ih =>
    exact Value.nodes_subset_list List.mem_append_cons_self ih
  | entry before name inner after hcall ih =>
    exact Value.nodes_subset_map List.mem_append_cons_self ih
  | argument function inner hname hd ih => exact Value.nodes_subset_call ih

theorem mem_nodes_fill (c : Enclosure) (v : Value) : v ∈ (c.fill v).nodes :=
  c.mem_nodes_fill_of_mem v.mem_nodes_self

end Enclosure

namespace Value

variable {d : Deployment}

/-- Where a value is missing inside this one, a place is kept for it. -/
def KeepsPlaces (d : Deployment) (v : Value) : Prop :=
  ∀ c : Enclosure, v = c.fill .noValueRef → c = .hole ∨ c.KeepsPlace d

/-- Where a value is missing in this one, a place is kept for it; so this one is not missing. -/
def Clears (d : Deployment) (v : Value) : Prop :=
  ∀ c : Enclosure, v = c.fill .noValueRef → c.KeepsPlace d

theorem Clears.keepsPlaces {v : Value} (h : v.Clears d) : v.KeepsPlaces d :=
  fun c hc => .inr (h c hc)

theorem KeepsPlaces.clears {v : Value} (h : v.KeepsPlaces d) (hv : v.isNoValueRef = false) :
    v.Clears d := by
  intro c hc
  rcases h c hc with rfl | hkeeps
  · rw [hc] at hv
    cases hv
  · exact hkeeps

theorem Clears.isNoValueRef_eq_false {v : Value} (h : v.Clears d) : v.isNoValueRef = false :=
  Bool.eq_false_iff.mpr fun href => h .hole (isNoValueRef_iff.mp href)

/-! ### One lemma for each kind of node -/

theorem clears_of_isCallFree {v : Value} (h : v.IsCallFree) : v.Clears d := by
  rintro c rfl
  have := h _ (c.mem_nodes_fill .noValueRef)
  rw [noValueRef, isCall_call Intrinsic.isName_ref] at this
  cases this

theorem clears_list {items : List Value} (h : ∀ v ∈ items, v.Clears d) : (list items).Clears d := by
  intro c hc
  cases c with
  | item before inner after =>
    obtain rfl := list.inj hc
    have hkeeps : inner.KeepsPlace d := h _ List.mem_append_cons_self inner rfl
    exact hkeeps
  | hole | entry | argument => cases hc

theorem Clears.of_mem_items {items : List Value} (h : (list items).Clears d) {v : Value}
    (hv : v ∈ items) : v.Clears d := by
  rintro c rfl
  obtain ⟨before, after, rfl⟩ := List.append_of_mem hv
  exact h (.item before c after) rfl

theorem clears_plain {entries : List (Text × Value)} (hcall : call? entries = none)
    (h : ∀ entry ∈ entries, entry.2.Clears d) : (map entries).Clears d := by
  have hnone : ∀ {function argument}, isName function = true →
      map entries ≠ .call function argument := by
    rintro function argument hname hc
    rw [map.inj hc, Intrinsic.call?_call argument hname] at hcall
    cases hcall
  intro c hc
  cases c with
  | hole => exact absurd hc (hnone Intrinsic.isName_ref)
  | item => cases hc
  | entry before name inner after _ =>
    obtain rfl := map.inj hc
    have hkeeps : inner.KeepsPlace d :=
      h (name, inner.fill .noValueRef) List.mem_append_cons_self inner rfl
    exact hkeeps
  | argument function inner hname _ => exact absurd hc (hnone hname)

/-- The values of a map that is no call are cleared if the map is. -/
theorem Clears.of_mem_entries {entries : List (Text × Value)} (h : (map entries).Clears d)
    (hcall : call? entries = none) {entry : Text × Value} (hentry : entry ∈ entries) :
    entry.2.Clears d := by
  intro c hc
  obtain ⟨before, after, rfl⟩ := List.append_of_mem hentry
  have hplain (v : Value) : call? (before ++ (entry.1, v) :: after) = none :=
    Intrinsic.call?_eq_none_of_names (by simp) hcall
  exact h (.entry before entry.1 c after hplain) (by rw [Enclosure.fill, ← hc])

/-- A call is left to the deployment, or a place in it is one in its argument. -/
theorem keepsPlaces_call {function : Text} {argument : Value} (hname : isName function = true)
    (h : ∀ (inner : Enclosure) (hd : isDeferred function = false),
      argument = inner.fill .noValueRef →
        (Enclosure.argument function inner hname hd).KeepsPlace d) :
    (call function argument).KeepsPlaces d := by
  intro c hc
  cases c with
  | hole => exact .inl rfl
  | item => cases hc
  | entry before name inner after hcall =>
    have := hcall (inner.fill .noValueRef)
    rw [← map.inj hc, Intrinsic.call?_call argument hname] at this
    cases this
  | argument other inner _ hd =>
    obtain ⟨rfl, hinner⟩ := Prod.mk.inj (List.singleton_inj.mp (map.inj hc))
    exact .inr (h inner hd hinner)

theorem keepsPlaces_deferred {function : Text} (h : isDeferred function = true) (argument : Value) :
    (call function argument).KeepsPlaces d :=
  keepsPlaces_call (Intrinsic.isName_of_isDeferred h) fun _ hd _ => by rw [h] at hd; cases hd

/-- In a call with a cleared argument all places are kept. -/
theorem keepsPlaces_call_of_clears {function : Text} {argument : Value}
    (hname : isName function = true) (h : argument.Clears d) :
    (call function argument).KeepsPlaces d :=
  keepsPlaces_call hname fun inner _ hinner => (h inner hinner).argument

/-- The whole argument of a call that is no conditional may be missing. -/
theorem keepsPlaces_argument {function : Text} {argument : Value} (hname : isName function = true)
    (hif : function ≠ ifElse) (h : argument.KeepsPlaces d) :
    (call function argument).KeepsPlaces d := by
  refine keepsPlaces_call hname fun inner _ hinner => ?_
  rcases h inner hinner with rfl | hkeeps
  · exact hif
  · exact hkeeps.argument

/-- The branches of a conditional that is not decided may be missing. -/
theorem keepsPlaces_branches {name : Text} {whenTrue whenFalse : Value}
    (h : d.conditions.get? name = none) (htrue : whenTrue.KeepsPlaces d)
    (hfalse : whenFalse.KeepsPlaces d) :
    (call ifElse (.list [.string name, whenTrue, whenFalse])).KeepsPlaces d := by
  refine keepsPlaces_call (by decide) fun c _ hc => ?_
  cases c with
  | hole | entry | argument => cases hc
  | item before inner after =>
    have hname (s : Text) : inner.fill .noValueRef ≠ .string s :=
      inner.fill_ne_string (fun _ => by simp [noValueRef, call]) s
    have hparts := list.inj hc
    -- The hole is in one of three parts, and not in the first, which is a string.
    rcases before with _ | ⟨first, _ | ⟨second, _ | ⟨third, rest⟩⟩⟩
    · exact absurd (List.cons.inj hparts).1.symm (hname name)
    · simp only [List.cons_append, List.nil_append, List.cons.injEq] at hparts
      obtain ⟨rfl, rfl, rfl⟩ := hparts
      rcases htrue inner rfl with rfl | hkeeps
      · exact ⟨rfl, .whenTrue h⟩
      · exact Enclosure.KeepsPlace.argument (c := .item _ inner _) hkeeps
    · simp only [List.cons_append, List.nil_append, List.cons.injEq] at hparts
      obtain ⟨rfl, rfl, rfl, rfl⟩ := hparts
      rcases hfalse inner rfl with rfl | hkeeps
      · exact ⟨rfl, .whenFalse h⟩
      · exact Enclosure.KeepsPlace.argument (c := .item _ inner _) hkeeps
    · simp at hparts

end Value

/-! ### What an evaluation gives is cleared -/

namespace Outcome

variable {d : Deployment} {outcome : Outcome}

/-- An outcome whose value, if there is one, is cleared. -/
def Clears (d : Deployment) (outcome : Outcome) : Prop :=
  ∀ v, outcome = .value v → v.Clears d

theorem clears_value {v : Value} (h : v.Clears d) : (value v).Clears d :=
  fun _ hv => value.inj hv ▸ h

theorem clears_noValue : noValue.Clears d :=
  fun _ h => by cases h

/-- The reference that stands for a missing value is kept as a whole. -/
theorem Clears.keepsPlaces_kept (h : outcome.Clears d) : outcome.kept.KeepsPlaces d := by
  cases outcome with
  | value v => exact (h v rfl).keepsPlaces
  | noValue =>
    exact Value.keepsPlaces_argument Intrinsic.isName_ref (by decide)
      (Value.clears_of_isCallFree (Value.isCallFree_of_isAtom rfl)).keepsPlaces

/-- A branch is found again in the place where it was kept. -/
theorem Clears.ofBranch_kept (h : outcome.Clears d) : ofBranch outcome.kept = outcome := by
  cases outcome with
  | value v => rw [kept, ofBranch, (h v rfl).isNoValueRef_eq_false, if_neg Bool.false_ne_true]
  | noValue => rfl

/-- A branch that stands for a missing value gives none. -/
theorem clears_ofBranch {branch : Value} (h : branch.KeepsPlaces d) :
    (ofBranch branch).Clears d := by
  unfold ofBranch
  split
  · exact clears_noValue
  · next hbranch => exact clears_value (h.clears (Bool.eq_false_iff.mpr hbranch))

end Outcome

namespace Intrinsic

open Substitution (Piece substitute substitute_cases scan lookup pending carried)

variable {d : Deployment}

/-- The local variables that are carried along have no text, so they do not make up the reference
that stands for a missing value. -/
theorem isNoValueRef_carried (locals : List (Text × Value)) (pieces : List Piece) :
    (Value.map (carried d locals pieces)).isNoValueRef = false := by
  refine Bool.eq_false_iff.mpr fun href => ?_
  have hcarried : carried d locals pieces = [(ref, .string Intrinsic.noValue)] :=
    Value.map.inj (Value.isNoValueRef_iff.mp href)
  have hmem : (ref, .string Intrinsic.noValue) ∈ carried d locals pieces :=
    hcarried ▸ List.mem_cons_self
  have hpending : (pending d locals pieces).contains ref = true := (List.mem_filter.mp hmem).2
  have hget := Fields.get?_filter locals ((pending d locals pieces).contains ·) ref
  rw [if_pos hpending, ← carried, hcarried] at hget
  have hunknown := (List.mem_filter.mp (List.contains_iff_mem.mp hpending)).2
  rw [lookup, ← hget] at hunknown
  cases hunknown

/-- Some of the entries of a cleared map make up a cleared map, even if they are a call and the map
is none. -/
theorem clears_carried {locals : List (Text × Value)} (h : (Value.map locals).Clears d)
    (pieces : List Piece) : (Value.map (carried d locals pieces)).Clears d := by
  cases hlocals : call? locals with
  | some parts =>
    obtain ⟨rfl, -⟩ := call?_eq_some_iff.mp hlocals
    rw [carried, List.filter_cons, List.filter_nil]
    split
    · exact h
    · exact Value.clears_plain rfl (by simp)
  | none =>
    have hvalues : ∀ entry ∈ carried d locals pieces, entry.2.Clears d := fun entry hentry =>
      h.of_mem_entries hlocals (List.mem_filter.mp hentry).1
    -- Of several local variables a single one may be left, with the name of a function.
    cases hcall : call? (carried d locals pieces) with
    | none => exact Value.clears_plain hcall hvalues
    | some parts =>
      obtain ⟨hsingle, hname⟩ := call?_eq_some_iff.mp hcall
      have href := isNoValueRef_carried (d := d) locals pieces
      rw [hsingle] at hvalues href ⊢
      exact (Value.keepsPlaces_call_of_clears hname (hvalues _ List.mem_cons_self)).clears href

theorem clears_substitute {locals : List (Text × Value)} (h : (Value.map locals).Clears d)
    (text : Text) : (substitute d locals text).Clears d := by
  have hstring (t : Text) : (Value.string t).Clears d :=
    Value.clears_of_isCallFree (Value.isCallFree_of_isAtom rfl)
  have hsub {argument : Value} (hargument : argument.Clears d) :
      (Value.call sub argument).Clears d :=
    (Value.keepsPlaces_call_of_clears (by decide) hargument).clears
      (isNoValueRef_call_of_ne (by decide) argument)
  have hcarried := clears_carried h (scan text)
  obtain ⟨-, heq⟩ | ⟨-, -, heq⟩ | ⟨-, -, heq⟩ := substitute_cases d locals text
  all_goals rw [heq]
  · exact hstring _
  · exact hsub (hstring _)
  · exact hsub (Value.clears_list (by simp [hstring, hcarried]))

/-- What a call of another function than `Fn::If` gives is cleared if its argument is, which may be
missing itself. -/
theorem clears_of_invoked (hd : d.HoldsNoCalls) {function : Text} {argument : Value}
    {outcome : Outcome} (hname : isName function = true) (hif : function ≠ ifElse)
    (hargument : argument.KeepsPlaces d) (h : Invoked d function argument outcome) :
    outcome.Clears d := by
  have hfree {v : Value} (hv : v.IsCallFree) : (Outcome.value v).Clears d :=
    Outcome.clears_value (Value.clears_of_isCallFree hv)
  cases h with
  | kept hkept =>
    exact Outcome.clears_value ((Value.keepsPlaces_argument hname hif hargument).clears hkept)
  | noValue => exact Outcome.clears_noValue
  | pseudo | condition => exact hfree (Value.isCallFree_of_isAtom rfl)
  | parameter _ _ h => exact hfree (hd.parameters h)
  | attributeKnown _ h => exact hfree (hd.attributes h)
  | attributeKept =>
    refine Outcome.clears_value ((Value.keepsPlaces_call_of_clears hname ?_).clears
      (isNoValueRef_call_of_ne (by decide) _))
    exact Value.clears_of_isCallFree (Value.isCallFree_ofStrings _)
  | mapping h => exact hfree (hd.mappings h)
  | branch => exact absurd rfl hif
  | text t => exact Outcome.clears_value (clears_substitute (Value.clears_plain rfl (by simp)) t)
  | textWithLocals t locals =>
    exact Outcome.clears_value (clears_substitute ((hargument.clears rfl).of_mem_items (by simp)) t)

/-- What a conditional gives is cleared if its branches are, which may be missing themselves. -/
theorem clears_of_evalIf {argument : Value} {outcome : Outcome}
    (hitems : ∀ items, argument = .list items → ∀ v ∈ items, v.KeepsPlaces d)
    (h : evalIf d argument = .ok outcome) : outcome.Clears d := by
  obtain ⟨name, whenTrue, whenFalse, rfl, hcases⟩ := evalIf_cases h
  have hbranches := hitems _ rfl
  simp only [List.forall_mem_cons] at hbranches
  obtain ⟨-, htrue, hfalse, -⟩ := hbranches
  rcases hcases with ⟨hunknown, rfl⟩ | ⟨b, -, rfl⟩
  · exact Outcome.clears_value ((Value.keepsPlaces_branches hunknown htrue hfalse).clears
      (isNoValueRef_call_of_ne (by decide) _))
  · refine Outcome.clears_ofBranch ?_
    split
    · exact htrue
    · exact hfalse

namespace Dispatch

variable {table : Dispatch}

/-- The branches of a conditional are evaluated one by one, or given by what its argument is
evaluated to. -/
theorem keepsPlaces_of_reduceArgument {argument : Value} {parts : List Value}
    (h : ∀ outcome, table.reduce d argument = .ok outcome → outcome.Clears d)
    (hitems : ∀ items, argument = .list items →
      ∀ v ∈ items, ∀ outcome, table.reduce d v = .ok outcome → outcome.Clears d)
    (hok : table.reduceArgument d ifElse argument = .ok (.list parts)) :
    ∀ v ∈ parts, v.KeepsPlaces d := by
  cases argument with
  | list items =>
    obtain ⟨outcomes, heach, hparts⟩ := reduceArgument_list_eq_ok.mp hok
    rw [Outcome.gathered_ifElse] at hparts
    obtain rfl := Value.list.inj hparts
    exact List.forall_mem_map.mpr fun outcome houtcome =>
      (forall_mem_of_reduceEach (hitems items rfl) heach outcome houtcome).keepsPlaces_kept
  | null | bool | int | double | string | map =>
    obtain ⟨outcome, hreduce, hkept⟩ := (reduceArgument_eq_ok (by simp)).mp hok
    have hkeeps := (h outcome hreduce).keepsPlaces_kept
    rw [← hkept] at hkeeps
    exact fun v hv => ((hkeeps.clears rfl).of_mem_items hv).keepsPlaces

/-- **What an evaluation gives is cleared.**  Each call that stands for a missing value disappears
on the way, or a place is kept for it. -/
theorem IsBuiltIn.clears_reduce (htable : table.IsBuiltIn) (hd : d.HoldsNoCalls) {v : Value}
    (hmixed : ∀ n ∈ v.nodes, n.isMixed = false) {outcome : Outcome}
    (hok : table.reduce d v = .ok outcome) : outcome.Clears d := by
  induction v using Value.induction generalizing outcome with
  | atom v hv =>
    rw [reduce_atom hv] at hok
    exact Except.ok.inj hok ▸ Outcome.clears_value
      (Value.clears_of_isCallFree (Value.isCallFree_of_isAtom hv))
  | list items ih =>
    obtain ⟨outcomes, heach, rfl⟩ := reduce_list_eq_ok.mp hok
    have houtcomes : ∀ outcome ∈ outcomes, outcome.Clears d :=
      forall_mem_of_reduceEach (fun v hv outcome => ih v hv fun n hn =>
        hmixed n (Value.nodes_subset_list hv hn)) heach
    exact Outcome.clears_value
      (Value.clears_list fun v hv => houtcomes _ (Outcome.mem_items.mp hv) v rfl)
  | plain entries hcall ih =>
    obtain ⟨outcomes, hnamed, rfl⟩ := (reduce_plain_eq_ok hcall).mp hok
    have hnames := Value.not_isName_of_plain hcall (hmixed _ (Value.mem_nodes_self _))
    have houtcomes : ∀ named ∈ outcomes, named.2.Clears d :=
      forall_mem_of_reduceNamed (fun entry hentry outcome => ih entry hentry fun n hn =>
        hmixed n (Value.nodes_subset_map hentry hn)) hnamed
    exact Outcome.clears_value (Value.clears_plain
      (Value.call?_of_not_isName (not_isName_of_reduceNamed hnames hnamed))
      fun entry hentry => houtcomes _ (Outcome.mem_entries.mp hentry) entry.2 rfl)
  | call function argument hname ih ihs =>
    cases hdeferred : isDeferred function with
    | true =>
      rw [reduce_deferred hname hdeferred] at hok
      refine Except.ok.inj hok ▸ Outcome.clears_value
        ((Value.keepsPlaces_deferred hdeferred argument).clears (isNoValueRef_call_of_ne ?_ _))
      rintro rfl
      cases hdeferred
    | false =>
      have hargument : ∀ n ∈ argument.nodes, n.isMixed = false := fun n hn =>
        hmixed n (Value.nodes_subset_call hn)
      obtain ⟨evaluated, hevaluated, hinvoke⟩ := (reduce_call_eq_ok hname hdeferred).mp hok
      -- Only a conditional may have a list with missing items for its argument.
      by_cases hif : function = ifElse
      · subst hif
        rw [htable.invoke_of_ne (by decide)] at hinvoke
        refine clears_of_evalIf ?_ (eval_of_invoke .ifElse (by decide) hinvoke)
        rintro parts rfl
        refine keepsPlaces_of_reduceArgument (fun outcome => ih hargument) ?_ hevaluated
        rintro items rfl v hv outcome
        exact ihs items rfl v hv fun n hn =>
          hargument n (Value.nodes_subset_list hv hn)
      · obtain ⟨outcome', hreduce, rfl⟩ := (reduceArgument_eq_ok_of_ne_ifElse hif).mp hevaluated
        rcases htable.invoked hinvoke with hinvoked | ⟨delimiter, texts, -, rfl⟩
        · exact clears_of_invoked hd hname hif (ih hargument hreduce).keepsPlaces_kept hinvoked
        · exact Outcome.clears_value (Value.clears_of_isCallFree (Value.isCallFree_of_isAtom rfl))

theorem clears_reduce (hd : d.HoldsNoCalls) {v : Value} (hmixed : ∀ n ∈ v.nodes, n.isMixed = false)
    {outcome : Outcome} (hok : standard.reduce d v = .ok outcome) : outcome.Clears d :=
  IsBuiltIn.clears_reduce (.inl rfl) hd hmixed hok

end Dispatch

end Intrinsic

namespace Expander

variable {e : Expander}

/-- **Missing values are taken out completely.**  Take an expander with the standard table, without
new names and placeholders, for which nothing that is known holds calls.  If it resolves a value
without mixed maps, then the reference to `AWS::NoValue` is in the result only as a branch of a
conditional that is not decided, or as the whole argument of a call of another function: the result
is not the reference, and no entry of a map that is no call and no other item of a list is. -/
theorem keepsPlace_of_resolve (h : e.IsStandard) (hd : e.deployment.HoldsNoCalls) {v w : Value}
    (hmixed : ∀ n ∈ v.nodes, n.isMixed = false) {l : Location}
    (hok : (e.resolve v l).1 = .ok (.value w)) :
    ∀ c : Enclosure, w = c.fill .noValueRef → c.KeepsPlace e.deployment :=
  Intrinsic.Dispatch.clears_reduce hd hmixed ((resolve_eq_ok_iff h).mp hok) w rfl

/-- A branch of an open conditional and the argument of `Fn::Base64` stay.  An entry, an item of a
list inside the other branch and the branch of a conditional that is decided disappear. -/
theorem keepsPlace_of_resolve_of_conditional :
    let conditional (name : Text) (whenTrue whenFalse : Value) : Value :=
      .call ifElse (.list [.string name, whenTrue, whenFalse])
    let encoded : Value := .call Intrinsic.base64 .noValueRef
    let v : Value := .map
      [("Size", conditional "Big" .noValueRef (.list [.noValueRef, .string "small"])),
        ("Retained", conditional "Test" .noValueRef (.string "yes")), ("Tags", .noValueRef),
        ("UserData", encoded)]
    let w : Value := .map
      [("Size", conditional "Big" .noValueRef (.list [.string "small"])), ("UserData", encoded)]
    let e : Expander := { deployment := ({} : Deployment).setCondition "Test" true }
    (e.resolve v ⟨""⟩).1 = .ok (.value w) ∧ .noValueRef ∈ w.nodes ∧
      ∀ c : Enclosure, w = c.fill .noValueRef → c.KeepsPlace e.deployment := by
  intro conditional encoded v w e
  have hok : (e.resolve v ⟨""⟩).1 = .ok (.value w) := by decide +kernel
  have hd : e.deployment.HoldsNoCalls :=
    (Deployment.isPlain_default.setCondition "Test" true).holdsNoCalls
  exact ⟨hok, by decide +kernel,
    keepsPlace_of_resolve ⟨rfl, rfl, rfl⟩ hd (by decide +kernel) hok⟩

end Expander

end CloudTemplate
