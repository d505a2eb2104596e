import CloudTemplate.Proofs.Value.Enclosure
import CloudTemplate.Proofs.Evaluation.StagedCalls
import CloudTemplate.Proofs.Expander.ExactEdges
import CloudTemplate.Proofs.Expander.Renaming

/-!
# How often a reference is renamed

The walk renames the argument of a call, and all that maps alone separate from it, before it comes
to the calls inside.  So a reference is renamed once as a call of its own, and once more by each of
the enclosing calls from which no list separates it: `Enclosure.renamings` counts them.

## Main results

* `Enclosure.renamed_fill`: a value with the new names in place is an enclosure with the new names
  around what the hole holds, renamed as often as that.
* `Intrinsic.Dispatch.leaves_fill`: what evaluates to itself stays where it stands, unless a
  substitution or a decided conditional encloses it.
* `Expander.resolve_leaves_renamed_reference`: which name a reference is left with, and where its
  edge goes.  If a new name is renamed in its turn, it is not always that of the first renaming.
-/

namespace CloudTemplate

open Intrinsic (isName isDeferred call? Dispatch)

/-- A reference to a name, or to an attribute of what it names. -/
def Value.reference (name : Text) : Option Text → Value
  | none => .call Intrinsic.ref (.string name)
  | some attr => .call Intrinsic.getAtt (.ofStrings [name, attr])

namespace Enclosure

variable {e : Expander}

/-- How many of the enclosing calls rename what is in the hole, if `n` calls rename the whole. -/
def renamings (n : Nat) : Enclosure → Nat
  | hole => n
  | item _ inner _ => inner.renamings 0
  | entry _ _ inner _ _ => inner.renamings n
  | argument _ inner _ _ => inner.renamings (n + 1)

/-- An enclosure with all names renamed. -/
def renamed (e : Expander) (n : Nat) : Enclosure → Enclosure
  | hole => hole
  | item before inner after =>
    item ((e.renameHead n before).map (e.renamed 0)) (inner.renamed e 0) (after.map (e.renamed 0))
  | entry before name inner after hcall =>
    entry (before.map fun entry => (entry.1, e.renamed n entry.2)) name (inner.renamed e n)
      (after.map fun entry => (entry.1, e.renamed n entry.2))
      fun v => Intrinsic.call?_eq_none_of_names (by simp [Function.comp_def]) (hcall v)
  | argument function inner hname hd => argument function (inner.renamed e (n + 1)) hname hd

theorem renameHead_append (n : Nat) (before after : List Value) {v : Value}
    (h : ∀ s, v ≠ .string s) :
    e.renameHead n (before ++ v :: after) = e.renameHead n before ++ v :: after := by
  match before with
  | [] => cases v <;> simp_all [Expander.renameHead]
  | u :: rest => cases u <;> simp [Expander.renameHead]

theorem renamed_fill (c : Enclosure) (n : Nat) {v : Value} (h : ∀ s, v ≠ .string s) :
    e.renamed n (c.fill v) = (c.renamed e n).fill (e.renamed (c.renamings n) v) := by
  induction c generalizing n with
  | hole => rfl
  | item before inner after ih =>
    rw [fill, Expander.renamed_list, Expander.renameHead_map_renamed,
      renameHead_append n before after (inner.fill_ne_string h), List.map_append, List.map_cons, ih]
    rfl
  | entry before name inner after hcall ih =>
    rw [fill, Expander.renamed_plain n (hcall _), List.map_append, List.map_cons, ih]
    rfl
  | argument function inner hname hd ih =>
    rw [fill, Expander.renamed_call n _ hname hd, ih]
    rfl

/-- New names do not change which calls enclose the hole. -/
theorem encloses_renamed (c : Enclosure) (n : Nat) {function : Text} :
    (c.renamed e n).Encloses function ↔ c.Encloses function := by
  induction c generalizing n with
  | hole => rfl
  | item _ _ _ ih => exact ih 0
  | entry _ _ _ _ _ ih => exact ih n
  | argument _ _ _ _ ih => exact or_congr_right (ih (n + 1))

/-- What is in the hole is mentioned by the whole. -/
theorem mentions_fill {name : Text} (c : Enclosure) {v : Value} (h : Mentions name v) :
    Mentions name (c.fill v) := by
  induction c with
  | hole => exact h
  | item before inner after ih => exact .item List.mem_append_cons_self ih
  | entry before key inner after hcall ih =>
    have hmem : (key, inner.fill v) ∈ before ++ (key, inner.fill v) :: after :=
      List.mem_append_cons_self
    exact .entry hmem (Value.isDeferredCall_of_plain (hcall _)) ih
  | argument function inner hname hd ih => exact .entry List.mem_cons_self hd ih

end Enclosure

namespace Intrinsic.Dispatch

variable {table : Dispatch} {d : Deployment} {node : Value}

/-- Each item of a list that is evaluated has an outcome. -/
theorem exists_of_mem_reduceEach {items : List Value} {outcomes : List Outcome}
    (hok : table.reduceEach d items = .ok outcomes) {v : Value} (hv : v ∈ items) :
    ∃ outcome ∈ outcomes, table.reduce d v = .ok outcome := by
  induction items generalizing outcomes with
  | nil => cases hv
  | cons u rest ih =>
    obtain ⟨outcome, others, hu, hrest, rfl⟩ := reduceEach_cons_eq_ok.mp hok
    rcases List.mem_cons.mp hv with rfl | hv
    · exact ⟨outcome, List.mem_cons_self, hu⟩
    · obtain ⟨other, hother, hreduce⟩ := ih hrest hv
      exact ⟨other, List.mem_cons_of_mem _ hother, hreduce⟩

theorem exists_of_mem_reduceNamed {entries : List (Text × Value)}
    {outcomes : List (Text × Outcome)} (hok : table.reduceNamed d entries = .ok outcomes)
    {entry : Text × Value} (hentry : entry ∈ entries) :
    ∃ outcome, (entry.1, outcome) ∈ outcomes ∧ table.reduce d entry.2 = .ok outcome := by
  induction entries generalizing outcomes with
  | nil => cases hentry
  | cons first rest ih =>
    obtain ⟨outcome, others, hfirst, hrest, rfl⟩ := reduceNamed_cons_eq_ok.mp hok
    rcases List.mem_cons.mp hentry with rfl | hentry
    · exact ⟨outcome, List.mem_cons_self, hfirst⟩
    · obtain ⟨other, hother, hreduce⟩ := ih hrest hentry
      exact ⟨other, List.mem_cons_of_mem _ hother, hreduce⟩

/-- A node stays in a value: whatever the value evaluates to is a value in which the node stands. -/
def Leaves (table : Dispatch) (d : Deployment) (v node : Value) : Prop :=
  ∀ outcome, table.reduce d v = .ok outcome → ∃ w, outcome = .value w ∧ node ∈ w.nodes

/-- A call that stands in an evaluated argument stays, unless the argument is that of a
substitution, or of a conditional that is decided. -/
theorem mem_nodes_of_invoke (htable : table.IsBuiltIn) (hcall : node.isCall = true)
    {function : Text} (hsub : function ≠ sub)
    (hif : function = ifElse → ∀ name, d.conditions.get? name = none) {evaluated : Value}
    (hmem : node ∈ evaluated.nodes) {outcome : Outcome}
    (h : table.invoke d function evaluated = .ok outcome) :
    ∃ w, outcome = .value w ∧ node ∈ w.nodes := by
  have hfree : ¬ evaluated.IsCallFree := fun hfree => by
    have := hfree node hmem
    rw [hcall] at this
    cases this
  rcases htable.invoked h with hinvoked | ⟨delimiter, texts, rfl, rfl⟩
  · cases hinvoked with
    | kept => exact ⟨_, rfl, Value.nodes_subset_call hmem⟩
    | noValue | pseudo | parameter | condition | text =>
      exact absurd (Value.isCallFree_of_isAtom rfl) hfree
    | attributeKnown htarget | attributeKept htarget =>
      exact absurd (isCallFree_of_attributeTarget htarget) hfree
    | mapping => exact absurd (Value.isCallFree_ofStrings _) hfree
    | branch hbranch =>
      rw [hif rfl] at hbranch
      cases hbranch
    | textWithLocals => exact absurd rfl hsub
  · refine absurd (Value.isCallFree_list fun v hv => ?_) hfree
    rcases List.mem_pair.mp hv with rfl | rfl
    · exact Value.isCallFree_of_isAtom rfl
    · exact Value.isCallFree_ofStrings texts

/-- What is left of the items of an argument holds what is left of each. -/
theorem mem_nodes_gathered {function : Text} {outcomes : List Outcome} {w : Value}
    (hw : .value w ∈ outcomes) (hmem : node ∈ w.nodes) :
    node ∈ (Outcome.gathered function outcomes).nodes := by
  refine Value.nodes_subset_list ?_ hmem
  split
  · exact List.mem_map.mpr ⟨_, hw, rfl⟩
  · exact Outcome.mem_items.mpr hw

theorem leaves_item {before after : List Value} {v : Value} (h : table.Leaves d v node) :
    table.Leaves d (.list (before ++ v :: after)) node := by
  intro outcome hok
  obtain ⟨outcomes, heach, rfl⟩ := reduce_list_eq_ok.mp hok
  obtain ⟨outcome, houtcome, hv⟩ := exists_of_mem_reduceEach heach List.mem_append_cons_self
  obtain ⟨w, rfl, hw⟩ := h outcome hv
  exact ⟨_, rfl, Value.nodes_subset_list (Outcome.mem_items.mpr houtcome) hw⟩

theorem leaves_entry {before after : List (Text × Value)} {name : Text} {v : Value}
    (hcall : call? (before ++ (name, v) :: after) = none) (h : table.Leaves d v node) :
    table.Leaves d (.map (before ++ (name, v) :: after)) node := by
  intro outcome hok
  obtain ⟨outcomes, hnamed, rfl⟩ := (reduce_plain_eq_ok hcall).mp hok
  have hmem : (name, v) ∈ before ++ (name, v) :: after := List.mem_append_cons_self
  obtain ⟨outcome, houtcome, hv⟩ := exists_of_mem_reduceNamed hnamed hmem
  obtain ⟨w, rfl, hw⟩ := h outcome hv
  have hentry : (name, w) ∈ Outcome.entries outcomes := Outcome.mem_entries.mpr houtcome
  exact ⟨_, rfl, Value.nodes_subset_map hentry hw⟩

theorem leaves_argument (htable : table.IsBuiltIn) (hcall : node.isCall = true)
    {function : Text} (hname : isName function = true) (hd : isDeferred function = false)
    (hsub : function ≠ sub) (hif : function = ifElse → ∀ name, d.conditions.get? name = none)
    {argument : Value} (h : table.Leaves d argument node)
    (hitem : ∀ items, argument = .list items → ∃ v ∈ items, table.Leaves d v node) :
    table.Leaves d (.call function argument) node := by
  intro outcome hok
  obtain ⟨evaluated, hevaluated, hinvoke⟩ := (reduce_call_eq_ok hname hd).mp hok
  refine mem_nodes_of_invoke htable hcall hsub hif ?_ hinvoke
  cases argument with
  | list items =>
    obtain ⟨v, hv, hleaves⟩ := hitem items rfl
    obtain ⟨outcomes, heach, rfl⟩ := reduceArgument_list_eq_ok.mp hevaluated
    obtain ⟨outcome, houtcome, hreduce⟩ := exists_of_mem_reduceEach heach hv
    obtain ⟨w, rfl, hw⟩ := hleaves outcome hreduce
    exact mem_nodes_gathered houtcome hw
  | null | bool | int | double | string | map =>
    obtain ⟨outcome, hreduce, rfl⟩ := (reduceArgument_eq_ok (by simp)).mp hevaluated
    obtain ⟨w, rfl, hw⟩ := h outcome hreduce
    exact hw

/-- **What is in the hole stays**, if it evaluates to itself and no enclosing call can drop it.  If
it stands in an item of a list, it stays in that item, which is what an enclosing call asks for. -/
theorem leaves_fill (htable : table.IsBuiltIn) (hcall : node.isCall = true)
    (hnode : table.reduce d node = .ok (.value node)) (c : Enclosure) (hsub : ¬ c.Encloses sub)
    (hif : c.Encloses ifElse → ∀ name, d.conditions.get? name = none) :
    table.Leaves d (c.fill node) node ∧
      ∀ items, c.fill node = .list items → ∃ v ∈ items, table.Leaves d v node := by
  induction c with
  | hole =>
    refine ⟨fun outcome hok => ?_, fun items hitems => ?_⟩
    · exact ⟨node, Except.ok.inj (hok.symm.trans hnode), Value.mem_nodes_self node⟩
    · rw [show node = .list items from hitems] at hcall
      cases hcall
  | item before inner after ih =>
    refine ⟨leaves_item (ih hsub hif).1, fun items hitems => ?_⟩
    obtain rfl := Value.list.inj hitems
    exact ⟨_, List.mem_append_cons_self, (ih hsub hif).1⟩
  | entry before name inner after hplain ih =>
    exact ⟨leaves_entry (hplain _) (ih hsub hif).1, nofun⟩
  | argument function inner hname hd ih =>
    obtain ⟨hinner, hitem⟩ := ih (fun h => hsub (.inr h)) fun h => hif (.inr h)
    exact ⟨leaves_argument htable hcall hname hd (fun h => hsub (.inl h)) (fun h => hif (.inl h))
      hinner hitem, nofun⟩

end Intrinsic.Dispatch

namespace Expander

variable {e : Expander} {l : Location} {name : Text} {attr : Option Text}

theorem isCall_reference (name : Text) (attr : Option Text) :
    (Value.reference name attr).isCall = true := by
  cases attr with
  | none => exact Value.isCall_call Intrinsic.isName_ref
  | some attr => exact Value.isCall_call Intrinsic.isName_getAtt

theorem mentions_reference (name : Text) (attr : Option Text) :
    Mentions name (.reference name attr) := by
  cases attr with
  | none => exact .ref
  | some attr => exact .attributeOfList [.string attr]

/-- A reference is renamed once more than the calls around it do. -/
theorem renamed_reference (n : Nat) (name : Text) (attr : Option Text) :
    e.renamed n (.reference name attr) = .reference (e.newName^[n + 1] name) attr := by
  cases attr with
  | none =>
    rw [Value.reference, renamed_call n _ Intrinsic.isName_ref (by decide), renamed_string,
      Value.reference]
  | some attr =>
    rw [Value.reference, renamed_call n _ Intrinsic.isName_getAtt (by decide), Value.ofStrings,
      renamed_list, renameHead_map_renamed]
    simp [renameHead, renamed_string, Value.reference, Value.ofStrings]

end Expander

namespace Intrinsic.Dispatch

variable {table : Dispatch} {d : Deployment} {name : Text}

theorem evalRef_of_isTarget (htarget : d.IsTarget name) :
    evalRef d (.string name) = kept ref (.string name) := by
  obtain ⟨hmark, hpseudo⟩ := Bool.or_eq_false_iff.mp htarget.not_pseudo
  obtain ⟨hparameter, -⟩ := Bool.or_eq_false_iff.mp htarget.not_parameter
  have hname : name ≠ Pseudo.noValue := by
    rintro rfl
    cases hmark
  rw [Fields.has, Option.isSome_eq_false_iff, Option.isNone_iff_eq_none] at hpseudo hparameter
  rw [evalRef, if_neg hname, hpseudo, hparameter]

theorem evalGetAtt_of_isTarget (htarget : d.IsTarget name)
    (hunknown : ∀ attr, d.attribute? name attr = none) (attr : Text) :
    evalGetAtt d (.ofStrings [name, attr]) = kept getAtt (.ofStrings [name, attr]) := by
  have hdeclared : (d.listsResources && !d.declaresResource name) = false := by
    cases hlists : d.listsResources with
    | true => rw [htarget.declared hlists]; rfl
    | false => rfl
  rw [evalGetAtt, attributeTarget_ofStrings]
  change (if (d.listsResources && !d.declaresResource name) = true then _ else _) = _
  rw [hdeclared, if_neg Bool.false_ne_true, hunknown attr]

/-- A reference to a resource evaluates to itself as long as nothing is known of the resource. -/
theorem reduce_reference (htable : table.IsBuiltIn) (htarget : d.IsTarget name)
    (hunknown : ∀ attr, d.attribute? name attr = none) (attr : Option Text) :
    table.reduce d (.reference name attr) = .ok (.value (.reference name attr)) := by
  cases attr with
  | none =>
    refine (reduce_call_eq_ok isName_ref (by decide)).mpr ⟨.string name, ?_, ?_⟩
    · exact reduceArgument_string ref name
    · rw [htable.invoke_of_ne (by decide)]
      exact invoke_of_eval .ref (by decide) (evalRef_of_isTarget htarget)
  | some attr =>
    refine (reduce_call_eq_ok isName_getAtt (by decide)).mpr ⟨.ofStrings [name, attr], ?_, ?_⟩
    · exact reduceArgument_of_reduce (by decide)
        (reduce_of_isCallFree (Value.isCallFree_ofStrings [name, attr]))
    · rw [htable.invoke_of_ne (by decide)]
      exact invoke_of_eval .getAtt (by decide) (evalGetAtt_of_isTarget htarget hunknown attr)

end Intrinsic.Dispatch

namespace Expander

open Intrinsic (Error)

variable {e : Expander} {l : Location}

/-- A walk comes to a reference with the new name in place, wherever the reference stands. -/
theorem evaluate_fill_reference (hp : e.placeholders = .empty) (c : Enclosure) (name : Text)
    (attr : Option Text) :
    e.evaluate l (c.fill (.reference name attr)) =
      e.withoutRenames.evaluate l
        ((c.renamed e 0).fill (.reference (e.newName^[c.renamings 0 + 1] name) attr)) := by
  have hstring : ∀ s, Value.reference name attr ≠ .string s := fun s h => by
    have := isCall_reference name attr
    rw [h] at this
    cases this
  rw [evaluate_eq_evaluate_renamed hp, c.renamed_fill 0 hstring, renamed_reference]

/-- **How often a reference is renamed.**  Take an expander without placeholders and a reference to
a name somewhere in a value, and rename the name once for the call that the reference is itself and
once for each of the enclosing calls from which maps alone lead down to it.  Let the new name be
that of a resource of which no attribute is known, and let the value resolve.

The name is renamed just once if a list stands between the reference and the calls around it, or if
the first new name is not renamed in its turn.  The value resolves, with the same edges, as it does
without new names where they are in place already; so the reference that is left has the new name,
unless a substitution or a decided conditional drops it, and the edge from the resource in which the
value stands goes to the new name. -/
theorem resolve_leaves_renamed_reference (hp : e.placeholders = .empty)
    (htable : e.dispatch.IsBuiltIn) (c : Enclosure) (name : Text) (attr : Option Text) {new : Text}
    (hnew : e.newName^[c.renamings 0 + 1] name = new) (htarget : e.deployment.IsTarget new)
    (hunknown : ∀ attr, e.deployment.attribute? new attr = none) {outcome : Outcome}
    (hok : (e.resolve (c.fill (.reference name attr)) l).1 = .ok outcome) :
    (c.renamings 0 = 0 ∨ e.newName (e.newName name) = e.newName name → new = e.newName name) ∧
      e.resolve (c.fill (.reference name attr)) l =
        e.keep (e.withoutRenames.evaluate l ((c.renamed e 0).fill (.reference new attr))) ∧
      (¬ c.Encloses Intrinsic.sub →
        (c.Encloses Intrinsic.ifElse → ∀ condition, e.deployment.conditions.get? condition = none) →
          ∃ w, outcome = .value w ∧ .reference new attr ∈ w.nodes) ∧
      ∀ resource, l.IsIn (some resource) →
        (e.resolve (c.fill (.reference name attr)) l).2.graph.has resource new = true := by
  have hwalk := evaluate_fill_reference (l := l) hp c name attr
  rw [hnew] at hwalk
  have hp' : e.withoutRenames.placeholders = .empty := hp
  have hok' : (e.withoutRenames.evaluate l
      ((c.renamed e 0).fill (.reference new attr))).result = .ok outcome := hwalk ▸ hok
  refine ⟨?once, by rw [resolve, hwalk], ?node, ?edge⟩
  case once =>
    rintro (hzero | hfixed)
    · rw [← hnew, hzero]
      rfl
    · rw [← hnew, newName_iterate_of_fixed hfixed]
  case node =>
    intro hsub hif
    have hreduce := result_evaluate (e := e.withoutRenames) rfl hp'
      ((c.renamed e 0).fill (.reference new attr)) l
    rw [hok'] at hreduce
    exact (Intrinsic.Dispatch.leaves_fill htable (isCall_reference new attr)
      (Intrinsic.Dispatch.reduce_reference htable htarget hunknown attr) (c.renamed e 0)
      (mt (c.encloses_renamed 0).mp hsub) fun h => hif ((c.encloses_renamed 0).mp h)).1
      outcome hreduce.symm
  case edge =>
    intro resource hl
    have hmentions := (c.renamed e 0).mentions_fill (mentions_reference new attr)
    have hedge := (mem_notes_evaluate (e := e.withoutRenames) rfl hp' _ l (some resource) outcome
      hl hok' ⟨resource, new⟩).mpr ⟨rfl, htarget, hmentions⟩
    rw [resolve, hwalk]
    exact Graph.has_insertAll.mpr (.inr hedge)

/-- A reference in a branch of a conditional that is not decided and is an argument in its turn.
Its name is renamed once along a chain of new names. -/
theorem resolve_leaves_renamed_reference_of_conditional :
    let t : Template := { resources := some [("A", .map []), ("B", .map []), ("C", .map [])] }
    let e : Expander :=
      renameAll { deployment := .ofTemplate (some t) } [("A", "B"), ("B", "C"), ("C", "A")]
    let c : Enclosure :=
      .argument Intrinsic.base64
        (.argument Intrinsic.ifElse (.item [.string "Big"] .hole [.noValueRef]) rfl rfl) rfl rfl
    let l : Location := ((Location.root.entry "Resources").entry "R").entry "Properties"
    e.newName "A" = "B" ∧ e.newName "B" = "C" ∧ c.renamings 0 = 0 ∧
      (e.resolve (c.fill (.reference "A" (some "Arn"))) l).1 =
        .ok (.value (c.fill (.reference "B" (some "Arn")))) ∧
      (∃ w, Outcome.value (c.fill (.reference "B" (some "Arn"))) = .value w ∧
        .reference "B" (some "Arn") ∈ w.nodes) ∧
      (e.resolve (c.fill (.reference "A" (some "Arn"))) l).2.graph.has "R" "B" = true := by
  intro t e c l
  have htarget : e.deployment.IsTarget "B" := Deployment.isTarget_iff.mpr (by decide +kernel)
  have hok : (e.resolve (c.fill (.reference "A" (some "Arn"))) l).1 =
      .ok (.value (c.fill (.reference "B" (some "Arn")))) := by decide +kernel
  have hnew : e.newName^[c.renamings 0 + 1] "A" = "B" := by decide +kernel
  obtain ⟨-, -, hnode, hedge⟩ := resolve_leaves_renamed_reference (by rfl) (.inl rfl) c "A"
    (some "Arn") hnew htarget (fun attr => by rfl) hok
  have hl : l.IsIn (some "R") := Location.isIn_attribute (by decide) (by decide) "Properties"
  exact ⟨by decide +kernel, by decide +kernel, rfl, hok, hnode (by decide) fun _ _ => rfl,
    hedge "R" hl⟩

/-- Two names are swapped.  A reference that is the argument of a call is renamed twice, and so it
is left with the name that it had, which is also where its edge goes. -/
theorem resolve_renames_reference_twice :
    let t : Template := { resources := some [("A", .map []), ("B", .map []), ("R", .map [])] }
    let e : Expander :=
      renameAll { deployment := .ofTemplate (some t) } [("A", "B"), ("B", "A")]
    let c : Enclosure := .argument Intrinsic.base64 .hole rfl rfl
    let l : Location := ((Location.root.entry "Resources").entry "R").entry "Properties"
    e.placeholders = .empty ∧ e.deployment.attributes = [] ∧
      e.deployment.IsTarget "A" ∧ e.deployment.IsTarget "B" ∧ e.newName "A" = "B" ∧
      (e.resolve (.reference "A" none) l).1 = .ok (.value (.reference "B" none)) ∧
      (e.resolve (c.fill (.reference "A" none)) l).1 =
        .ok (.value (c.fill (.reference "A" none))) ∧
      (e.resolve (c.fill (.reference "A" none)) l).2.graph.has "R" "A" = true ∧
      (e.resolve (c.fill (.reference "A" none)) l).2.graph.has "R" "B" = false := by
  intro t e c l
  refine ⟨rfl, rfl, Deployment.isTarget_iff.mpr ?_, Deployment.isTarget_iff.mpr ?_, ?_⟩
  all_goals decide +kernel

end Expander

end CloudTemplate
