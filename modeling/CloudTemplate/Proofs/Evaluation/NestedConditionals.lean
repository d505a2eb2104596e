import CloudTemplate.Proofs.Evaluation.MissingValues

/-!
# Nested conditionals

The branches of a conditional are evaluated before its condition is asked for.  A branch without a
value is kept in its place as the reference to `AWS::NoValue`; the branch that the condition selects
is compared with that reference, and so no value comes out again.  This happens once more at every
conditional around it.  No value of a branch is mistaken for a missing one, since what a branch
evaluates to is cleared.

`Conditional` is a tree of conditionals with values at its leaves.  If all conditions are known,
then the tree is as good as the leaf that they select, in a list or a map too.  A conditional whose
condition is not known keeps both branches.

## Main results

* `Conditional.exists_reduce`: a tree evaluates to what the leaf evaluates to that is selected.
* `Expander.resolve_nested_conditionals`: the same where the tree stands in a document.
-/

namespace CloudTemplate

open Intrinsic (ifElse)

/-- A value, or a conditional with a condition that is named and two branches. -/
inductive Conditional where
  | leaf (v : Value)
  | node (condition : Text) (whenTrue whenFalse : Conditional)

namespace Conditional

/-- The tree as a value. -/
def toValue : Conditional → Value
  | leaf v => v
  | node condition whenTrue whenFalse =>
    .call ifElse (.list [.string condition, whenTrue.toValue, whenFalse.toValue])

/-- The names of the conditions in a tree. -/
def conditions : Conditional → List Text
  | leaf _ => []
  | node condition whenTrue whenFalse => condition :: (whenTrue.conditions ++ whenFalse.conditions)

/-- The values at the leaves. -/
def leaves : Conditional → List Value
  | leaf v => [v]
  | node _ whenTrue whenFalse => whenTrue.leaves ++ whenFalse.leaves

/-- The value at the leaf that the conditions select. -/
def selected (d : Deployment) : Conditional → Value
  | leaf v => v
  | node condition whenTrue whenFalse =>
    if d.conditions.get? condition = some true then whenTrue.selected d else whenFalse.selected d

end Conditional

namespace Intrinsic.Dispatch

variable {table : Dispatch} {d : Deployment} {condition : Text} {whenTrue whenFalse : Value}
  {outcome other : Outcome}

/-- Both branches of a conditional are evaluated, and each keeps its place. -/
theorem reduce_ifElse (htrue : table.reduce d whenTrue = .ok outcome)
    (hfalse : table.reduce d whenFalse = .ok other) :
    table.reduce d (.call ifElse (.list [.string condition, whenTrue, whenFalse])) =
      table.invoke d ifElse (.list [.string condition, outcome.kept, other.kept]) := by
  have heach : table.reduceEach d [.string condition, whenTrue, whenFalse] =
      .ok [.value (.string condition), outcome, other] := by
    simp only [reduceEach_cons_eq_ok]
    exact ⟨_, _, reduce_atom rfl, ⟨_, _, htrue, ⟨_, _, hfalse, reduceEach_nil, rfl⟩, rfl⟩, rfl⟩
  have hargument :=
    reduceArgument_list_eq_ok.mpr ⟨_, heach, (Outcome.gathered_ifElse _).symm⟩
  rw [reduce_call (by decide) (by decide), hargument]
  rfl

/-- A known condition selects what one of the branches evaluates to. -/
theorem reduce_ifElse_of_known (htable : table.IsBuiltIn) {b : Bool}
    (h : d.conditions.get? condition = some b) (htrue : table.reduce d whenTrue = .ok outcome)
    (hfalse : table.reduce d whenFalse = .ok other) (houtcome : outcome.Clears d)
    (hother : other.Clears d) :
    table.reduce d (.call ifElse (.list [.string condition, whenTrue, whenFalse])) =
      .ok (if b then outcome else other) := by
  rw [reduce_ifElse htrue hfalse, htable.invoke_of_ne (by decide)]
  refine (invoke_of_eval .ifElse (by decide) (evalIf_of_known h _ _)).trans ?_
  cases b with
  | true => exact congrArg Except.ok houtcome.ofBranch_kept
  | false => exact congrArg Except.ok hother.ofBranch_kept

/-- While its condition is not known, a conditional is kept with both branches in their places. -/
theorem reduce_ifElse_of_unknown (htable : table.IsBuiltIn) (h : d.conditions.get? condition = none)
    (htrue : table.reduce d whenTrue = .ok outcome)
    (hfalse : table.reduce d whenFalse = .ok other) :
    table.reduce d (.call ifElse (.list [.string condition, whenTrue, whenFalse])) =
      .ok (.value (.call ifElse (.list [.string condition, outcome.kept, other.kept]))) := by
  rw [reduce_ifElse htrue hfalse, htable.invoke_of_ne (by decide)]
  exact invoke_of_eval .ifElse (by decide) (evalIf_of_unknown h _ _)

end Intrinsic.Dispatch

open Intrinsic (Dispatch)

/-- **A tree of known conditions is transparent**: it evaluates to what the leaf evaluates to that
the conditions select, which may be no value. -/
theorem Conditional.exists_reduce {table : Dispatch} (htable : table.IsBuiltIn) {d : Deployment}
    (hd : d.HoldsNoCalls) {tree : Conditional}
    (hknown : ∀ condition ∈ tree.conditions, ∃ b, d.conditions.get? condition = some b)
    (hmixed : ∀ v ∈ tree.leaves, ∀ n ∈ v.nodes, n.isMixed = false)
    (hleaves : ∀ v ∈ tree.leaves, ∃ outcome, table.reduce d v = .ok outcome) :
    ∃ outcome, table.reduce d (tree.selected d) = .ok outcome ∧
      table.reduce d tree.toValue = .ok outcome ∧ outcome.Clears d := by
  induction tree with
  | leaf v =>
    obtain ⟨outcome, hok⟩ := hleaves v List.mem_cons_self
    exact ⟨outcome, hok, hok, htable.clears_reduce hd (hmixed v List.mem_cons_self) hok⟩
  | node condition whenTrue whenFalse ihTrue ihFalse =>
    rw [conditions, List.forall_mem_cons, List.forall_mem_append] at hknown
    rw [leaves, List.forall_mem_append] at hmixed hleaves
    obtain ⟨⟨b, hb⟩, hknown⟩ := hknown
    obtain ⟨outcome, hselected, htrue, hclears⟩ := ihTrue hknown.1 hmixed.1 hleaves.1
    obtain ⟨other, hselected', hfalse, hclears'⟩ := ihFalse hknown.2 hmixed.2 hleaves.2
    have hnode := Dispatch.reduce_ifElse_of_known htable hb htrue hfalse hclears hclears'
    cases b with
    | true => exact ⟨outcome, by rw [selected, if_pos hb, hselected], hnode, hclears⟩
    | false => exact ⟨other, by rw [selected, if_neg (by simp [hb]), hselected'], hnode, hclears'⟩

namespace Expander

variable {e : Expander} {l : Location}

/-- What a value resolves to wherever it stands. -/
def ResolvesTo (e : Expander) (v : Value) (outcome : Outcome) : Prop :=
  ∀ l, (e.resolve v l).1 = .ok outcome

/-! ### Parts of lists and maps -/

theorem evaluateItems_append (index : Nat) (before after : List Value) :
    e.evaluateItems l index (before ++ after) = do
      let first ← e.evaluateItems l index before
      let second ← e.evaluateItems l (index + before.length) after
      return first ++ second := by
  induction before generalizing index with
  | nil => simp [evaluateItems]
  | cons v rest ih =>
    have hindex : index + (v :: rest).length = index + 1 + rest.length := by
      rw [List.length_cons]
      omega
    rw [List.cons_append, evaluateItems, evaluateItems, ih, hindex]
    simp only [bind_assoc, pure_bind, List.append_assoc]

theorem evaluateEntries_append (before after : List (Text × Value)) :
    e.evaluateEntries l (before ++ after) = do
      let first ← e.evaluateEntries l before
      let second ← e.evaluateEntries l after
      return first ++ second := by
  induction before with
  | nil => simp [evaluateEntries]
  | cons entry rest ih =>
    rw [List.cons_append, evaluateEntries, evaluateEntries, ih]
    simp only [bind_assoc, pure_bind, List.append_assoc]

/-- An item of a list is there or gone after the evaluation; the other items do not depend on it. -/
theorem resolve_list_of_item {before after before' after' : List Value} {v : Value}
    {outcome : Outcome} (hbefore : (e.evaluateItems l 0 before).result = .ok before')
    (hv : e.ResolvesTo v outcome)
    (hafter : (e.evaluateItems l (before.length + 1) after).result = .ok after') :
    (e.resolve (.list (before ++ v :: after)) l).1 =
      .ok (.value (.list (before' ++ outcome.item ++ after'))) := by
  have hitem : (e.evaluate (l.item before.length) v).result = .ok outcome := hv _
  rw [resolve, keep, evaluate, evaluateItems_append, evaluateItems, Nat.zero_add]
  simp [hbefore, hitem, hafter]
  rfl

/-- An entry of a map is there or gone after the evaluation; the other entries do not depend on
it. -/
theorem resolve_map_of_entry {before after before' after' : List (Text × Value)} {name : Text}
    {v : Value} (hcall : Intrinsic.call? (before ++ (name, v) :: after) = none) {outcome : Outcome}
    (hbefore : (e.evaluateEntries l before).result = .ok before') (hv : e.ResolvesTo v outcome)
    (hafter : (e.evaluateEntries l after).result = .ok after') :
    (e.resolve (.map (before ++ (name, v) :: after)) l).1 =
      .ok (.value (.map (before' ++ outcome.entry name ++ after'))) := by
  have hentry : (e.evaluate (l.entry name) v).result = .ok outcome := hv _
  rw [resolve, keep, evaluate_plain hcall, evaluateEntries_append, evaluateEntries]
  simp [hbefore, hentry, hafter]
  rfl

end Expander

/-- All conditions of a tree are known, and the values at its leaves resolve and have no mixed maps
in them. -/
structure Conditional.IsDecided (tree : Conditional) (e : Expander) : Prop where
  known : ∀ condition ∈ tree.conditions, ∃ b, e.deployment.conditions.get? condition = some b
  unmixed : ∀ v ∈ tree.leaves, ∀ n ∈ v.nodes, n.isMixed = false
  resolves : ∀ v ∈ tree.leaves, ∃ l outcome, (e.resolve v l).1 = .ok outcome

namespace Expander

variable {e : Expander}

/-- **Known conditions make conditionals transparent.**  Take an expander with one of the built-in
tables, without new names and placeholders, for which nothing that is known holds calls, and a tree
of known conditions with leaves that resolve and have no mixed maps in them.

The tree resolves to what the leaf resolves to that the conditions select.  So as an item of a list
or an entry of a map it disappears just if this leaf has no value.  If the tree is a branch of a
conditional whose condition is not known, then this conditional is kept with its three parts, and a
branch without a value is kept as the reference to `AWS::NoValue`. -/
theorem resolve_nested_conditionals (htable : e.dispatch.IsBuiltIn) (hr : e.renames = [])
    (hp : e.placeholders = .empty) (hd : e.deployment.HoldsNoCalls) {tree : Conditional}
    (htree : tree.IsDecided e) :
    ∃ outcome, e.ResolvesTo (tree.selected e.deployment) outcome ∧
      e.ResolvesTo tree.toValue outcome ∧
      (∀ l before after before' after', (e.evaluateItems l 0 before).result = .ok before' →
        (e.evaluateItems l (before.length + 1) after).result = .ok after' →
          (e.resolve (.list (before ++ tree.toValue :: after)) l).1 =
            .ok (.value (.list (before' ++ outcome.item ++ after')))) ∧
      (∀ l name before after before' after',
        Intrinsic.call? (before ++ (name, tree.toValue) :: after) = none →
          (e.evaluateEntries l before).result = .ok before' →
            (e.evaluateEntries l after).result = .ok after' →
              (e.resolve (.map (before ++ (name, tree.toValue) :: after)) l).1 =
                .ok (.value (.map (before' ++ outcome.entry name ++ after')))) ∧
      ∀ condition (other : Conditional), e.deployment.conditions.get? condition = none →
        other.IsDecided e →
          ∃ outcome', e.ResolvesTo (other.selected e.deployment) outcome' ∧
            e.ResolvesTo (Conditional.node condition tree other).toValue
              (.value (.call ifElse (.list [.string condition, outcome.kept, outcome'.kept]))) := by
  have hreduce {tree : Conditional} (h : tree.IsDecided e) :
      ∃ outcome, e.dispatch.reduce e.deployment (tree.selected e.deployment) = .ok outcome ∧
        e.dispatch.reduce e.deployment tree.toValue = .ok outcome ∧
          outcome.Clears e.deployment := by
    refine Conditional.exists_reduce htable hd h.known h.unmixed fun v hv => ?_
    obtain ⟨l, outcome, hok⟩ := h.resolves v hv
    exact ⟨outcome, (resolve_eq_ok hr hp).mp hok⟩
  have hresolves {v : Value} {outcome : Outcome}
      (h : e.dispatch.reduce e.deployment v = .ok outcome) : e.ResolvesTo v outcome :=
    fun l => (resolve_eq_ok hr hp).mpr h
  obtain ⟨outcome, hselected, hvalue, -⟩ := hreduce htree
  refine ⟨outcome, hresolves hselected, hresolves hvalue, ?item, ?entry, ?unknown⟩
  case item =>
    exact fun l before after before' after' hbefore hafter =>
      resolve_list_of_item hbefore (hresolves hvalue) hafter
  case entry =>
    exact fun l name before after before' after' hcall hbefore hafter =>
      resolve_map_of_entry hcall hbefore (hresolves hvalue) hafter
  case unknown =>
    intro condition other hunknown hother
    obtain ⟨outcome', hselected', hvalue', -⟩ := hreduce hother
    exact ⟨outcome', hresolves hselected',
      hresolves (Dispatch.reduce_ifElse_of_unknown htable hunknown hvalue hvalue')⟩

/-- Two known conditions select a leaf without a value, which disappears from a list and a map and
keeps its place in a conditional that is not decided. -/
theorem resolve_nested_conditionals_of_missing_leaf :
    let inner : Conditional := .node "Test" (.leaf (.string "small")) (.leaf .noValueRef)
    let tree : Conditional := .node "Big" inner (.leaf (.string "big"))
    let e : Expander :=
      { deployment := (({} : Deployment).setCondition "Big" true).setCondition "Test" false }
    e.ResolvesTo tree.toValue .noValue ∧
      (e.resolve (.list [.string "first", tree.toValue, .string "last"]) .root).1 =
        .ok (.value (.list [.string "first", .string "last"])) ∧
      (e.resolve (.map [("Size", tree.toValue), ("Name", .string "db")]) .root).1 =
        .ok (.value (.map [("Name", .string "db")])) ∧
      e.ResolvesTo (Conditional.node "Open" tree (.leaf (.string "other"))).toValue
        (.value (.call ifElse (.list [.string "Open", .noValueRef, .string "other"]))) := by
  intro inner tree e
  have hd : e.deployment.HoldsNoCalls :=
    ((Deployment.isPlain_default.setCondition "Big" true).setCondition "Test" false).holdsNoCalls
  have hleaves : ∀ v ∈ tree.leaves, ∃ l outcome, (e.resolve v l).1 = .ok outcome :=
    List.forall_mem_cons.mpr ⟨⟨.root, .value (.string "small"), by decide +kernel⟩,
      List.forall_mem_cons.mpr ⟨⟨.root, .noValue, by decide +kernel⟩,
        List.forall_mem_singleton.mpr ⟨.root, .value (.string "big"), by decide +kernel⟩⟩⟩
  have hknown : ∀ condition ∈ tree.conditions,
      ∃ b, e.deployment.conditions.get? condition = some b :=
    List.forall_mem_cons.mpr ⟨⟨true, by decide⟩, List.forall_mem_singleton.mpr ⟨false, by decide⟩⟩
  obtain ⟨outcome, hselected, hvalue, hitem, hentry, hunknown⟩ :=
    resolve_nested_conditionals (.inl rfl) rfl rfl hd ⟨hknown, by decide, hleaves⟩
  have hmissing : (e.resolve (tree.selected e.deployment) .root).1 = .ok .noValue := by
    decide +kernel
  obtain rfl : outcome = .noValue := Except.ok.inj ((hselected _).symm.trans hmissing)
  have hother : (Conditional.leaf (.string "other")).IsDecided e :=
    ⟨List.forall_mem_nil _, by decide,
      List.forall_mem_singleton.mpr ⟨.root, .value (.string "other"), by decide +kernel⟩⟩
  obtain ⟨outcome', hselected', hopen⟩ := hunknown "Open" _ (by decide) hother
  have hfound : (e.resolve (.string "other") .root).1 = .ok (.value (.string "other")) := by
    decide +kernel
  obtain rfl : outcome' = .value (.string "other") :=
    Except.ok.inj ((hselected' _).symm.trans hfound)
  exact ⟨hvalue,
    hitem .root [.string "first"] [.string "last"] [.string "first"] [.string "last"]
      (by decide +kernel) (by decide +kernel),
    hentry .root "Size" [] [("Name", .string "db")] [] [("Name", .string "db")] rfl
      (by decide +kernel) (by decide +kernel), hopen⟩

end Expander

end CloudTemplate
