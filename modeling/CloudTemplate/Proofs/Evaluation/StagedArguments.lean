import CloudTemplate.Proofs.Evaluation.MissingValues
import CloudTemplate.Proofs.Evaluation.Tokens

/-!
# What is left of lists, maps and arguments

A value can be evaluated as far as it is known what it needs, and what is left again when more is
known (`Deployment.GrowsTo`).  `Dispatch.Staged` says that the second evaluation gives what
evaluating the original value then gives.  If this holds of the items of a list, the entries of a
map or the argument of a call, then it holds of the list, the map and the argument, although items
and entries without a value are gone from what is left.
-/

namespace CloudTemplate

/-! ### What is known later -/

namespace Deployment

variable {d d' : Deployment}

theorem GrowsTo.refl (d : Deployment) : d.GrowsTo d :=
  ⟨rfl, fun _ => rfl, id, id, id⟩

theorem GrowsTo.findEntry_eq (hd : d.GrowsTo d') (name topKey secondKey : Text) :
    Intrinsic.findEntry d' name topKey secondKey = Intrinsic.findEntry d name topKey secondKey := by
  rw [Intrinsic.findEntry, Intrinsic.findEntry, mappings, mappings, hd.template]

/-- What was known earlier is plain if what is known later is. -/
theorem GrowsTo.isPlain (hd : d.GrowsTo d') (h : d'.IsPlain) : d.IsPlain where
  pseudo {name _} ht := h.pseudo ((hd.pseudo name).trans ht)
  parameters hv := h.parameters (hd.parameters hv)
  attributes hv := h.attributes (hd.attributes hv)
  mappings {name topKey secondKey _} hv :=
    h.mappings ((hd.findEntry_eq name topKey secondKey).trans hv)

/-- The outcome of a condition becomes known. -/
theorem growsTo_setCondition {name : Text} (h : d.conditions.get? name = none) (b : Bool) :
    d.GrowsTo (d.setCondition name b) where
  template := rfl
  pseudo _ := rfl
  parameters := id
  attributes := id
  conditions := Fields.get?_set_of_get?_eq_none h

/-- The value of a parameter becomes known. -/
theorem growsTo_setParameter {name : Text} (h : d.parameters.get? name = none) (v : Value) :
    d.GrowsTo (d.setParameter name v) where
  template := rfl
  pseudo _ := rfl
  parameters := Fields.get?_set_of_get?_eq_none h
  attributes := id
  conditions := id

end Deployment

namespace Intrinsic.Dispatch

variable {d d' : Deployment}

/-- What is left of a value gives later what the value gives later. -/
def Staged (d d' : Deployment) (v : Value) : Prop :=
  ∀ outcome later, standard.reduce d v = .ok outcome → standard.reduce d' v = .ok later →
    standard.reduce d' outcome.kept = .ok later

theorem reduce_noValueRef : standard.reduce d .noValueRef = .ok .noValue := by
  rw [Value.noValueRef, reduce_call (by decide) (by decide), reduceArgument]
  · rw [reduce_atom rfl]
    rfl
  · simp

end Intrinsic.Dispatch

namespace Outcome

theorem eq_value_of_kept_eq_list {outcome : Outcome} {items : List Value}
    (h : outcome.kept = .list items) : outcome = .value (.list items) := by
  cases outcome with
  | value v => exact congrArg value h
  | noValue => nomatch h

theorem length_items_le (outcomes : List Outcome) :
    (outcomes.flatMap item).length ≤ outcomes.length := by
  induction outcomes with
  | nil => exact Nat.le_refl 0
  | cons outcome rest ih =>
    cases outcome with
    | value v => simpa [item] using ih
    | noValue => simpa [item] using Nat.le_succ_of_le ih

/-- If as many items are left as there were, then each of them has its place. -/
theorem map_kept_of_length {outcomes : List Outcome}
    (h : (outcomes.flatMap item).length = outcomes.length) :
    outcomes.map kept = outcomes.flatMap item := by
  induction outcomes with
  | nil => rfl
  | cons outcome rest ih =>
    cases outcome with
    | value v =>
      rw [List.map_cons, List.flatMap_cons, ih (by simpa [item] using h)]
      rfl
    | noValue =>
      have := length_items_le rest
      simp only [List.flatMap_cons, item, List.nil_append, List.length_cons] at h
      omega

end Outcome

namespace Intrinsic.Dispatch

variable {d d' : Deployment}

/-! ### Lists and maps -/

/-- The items that keep their places give later what they give later, and those that are left give
the same values. -/
theorem reduceEach_staged {items : List Value} (h : ∀ v ∈ items, Staged d d' v)
    {outcomes later : List Outcome} (hok : standard.reduceEach d items = .ok outcomes)
    (hlater : standard.reduceEach d' items = .ok later) :
    standard.reduceEach d' (outcomes.map Outcome.kept) = .ok later ∧
      ∃ left, standard.reduceEach d' (outcomes.flatMap Outcome.item) = .ok left ∧
        left.flatMap Outcome.item = later.flatMap Outcome.item := by
  induction items generalizing outcomes later with
  | nil =>
    rw [reduceEach_nil] at hok hlater
    obtain rfl := Except.ok.inj hok
    obtain rfl := Except.ok.inj hlater
    exact ⟨reduceEach_nil, [], reduceEach_nil, rfl⟩
  | cons v rest ih =>
    obtain ⟨outcome, others, hv, hrest, rfl⟩ := reduceEach_cons_eq_ok.mp hok
    obtain ⟨outcome', others', hv', hrest', rfl⟩ := reduceEach_cons_eq_ok.mp hlater
    have hkept := h v List.mem_cons_self outcome outcome' hv hv'
    obtain ⟨hothers, left, hleft, hsame⟩ :=
      ih (fun u hu => h u (List.mem_cons_of_mem _ hu)) hrest hrest'
    refine ⟨reduceEach_cons_eq_ok.mpr ⟨outcome', others', hkept, hothers, rfl⟩, ?_⟩
    cases outcome with
    | value w =>
      refine ⟨outcome' :: left, reduceEach_cons_eq_ok.mpr ⟨outcome', left, hkept, hleft, rfl⟩, ?_⟩
      rw [List.flatMap_cons, List.flatMap_cons, hsame]
    | noValue =>
      have hnone : outcome' = .noValue :=
        (Except.ok.inj (reduce_noValueRef.symm.trans hkept)).symm
      exact ⟨left, hleft, by rw [hsame, hnone]; rfl⟩

/-- The entries that are left of a map give later what they give later. -/
theorem reduceNamed_staged {entries : List (Text × Value)}
    (h : ∀ entry ∈ entries, Staged d d' entry.2) {outcomes later : List (Text × Outcome)}
    (hok : standard.reduceNamed d entries = .ok outcomes)
    (hlater : standard.reduceNamed d' entries = .ok later) :
    ∃ left, standard.reduceNamed d' (Outcome.entries outcomes) = .ok left ∧
      Outcome.entries left = Outcome.entries later := by
  induction entries generalizing outcomes later with
  | nil =>
    rw [reduceNamed_nil] at hok hlater
    obtain rfl := Except.ok.inj hok
    obtain rfl := Except.ok.inj hlater
    exact ⟨[], reduceNamed_nil, rfl⟩
  | cons entry rest ih =>
    obtain ⟨outcome, others, hv, hrest, rfl⟩ := reduceNamed_cons_eq_ok.mp hok
    obtain ⟨outcome', others', hv', hrest', rfl⟩ := reduceNamed_cons_eq_ok.mp hlater
    have hkept := h entry List.mem_cons_self outcome outcome' hv hv'
    obtain ⟨left, hleft, hsame⟩ :=
      ih (fun other hother => h other (List.mem_cons_of_mem _ hother)) hrest hrest'
    rw [Outcome.entries_cons, Outcome.entries_cons, ← hsame]
    cases outcome with
    | value w =>
      exact ⟨(entry.1, outcome') :: left,
        reduceNamed_cons_eq_ok.mpr ⟨outcome', left, hkept, hleft, rfl⟩, rfl⟩
    | noValue =>
      have hnone : outcome' = .noValue :=
        (Except.ok.inj (reduce_noValueRef.symm.trans hkept)).symm
      exact ⟨left, hleft, by rw [hnone]; rfl⟩

/-! ### Arguments -/

theorem reduceArgument_of_reduce {table : Dispatch} {function : Text} (hf : function ≠ ifElse)
    {v : Value} {outcome : Outcome} (hok : table.reduce d v = .ok outcome) :
    table.reduceArgument d function v = .ok outcome.kept :=
  (reduceArgument_eq_ok_of_ne_ifElse hf).mpr ⟨outcome, hok, rfl⟩

/-- What is left of an argument gives later what the argument gives later. -/
theorem reduceArgument_staged {function : Text} (hf : function ≠ ifElse) {argument : Value}
    (h : (∀ items, argument ≠ .list items) → Staged d d' argument)
    (hitems : ∀ items, argument = .list items → ∀ v ∈ items, Staged d d' v)
    {evaluated later : Value} (hok : standard.reduceArgument d function argument = .ok evaluated)
    (hlater : standard.reduceArgument d' function argument = .ok later) :
    standard.reduceArgument d' function evaluated = .ok later := by
  cases argument with
  | list items =>
    obtain ⟨outcomes, heach, rfl⟩ := reduceArgument_list_eq_ok.mp hok
    obtain ⟨outcomes', heach', rfl⟩ := reduceArgument_list_eq_ok.mp hlater
    obtain ⟨-, left, hleft, hsame⟩ := reduceEach_staged (hitems items rfl) heach heach'
    rw [Outcome.gathered_of_ne hf, Outcome.gathered_of_ne hf, ← hsame]
    exact reduceArgument_list_eq_ok.mpr ⟨left, hleft, (Outcome.gathered_of_ne hf left).symm⟩
  | null | bool | int | double | string | map =>
    obtain ⟨outcome, hreduce, rfl⟩ := (reduceArgument_eq_ok (by simp)).mp hok
    obtain ⟨outcome', hreduce', rfl⟩ := (reduceArgument_eq_ok (by simp)).mp hlater
    exact reduceArgument_of_reduce hf (h (by simp) outcome outcome' hreduce hreduce')

theorem length_of_reduceEach {items : List Value} {outcomes : List Outcome}
    (hok : standard.reduceEach d items = .ok outcomes) : outcomes.length = items.length := by
  induction items generalizing outcomes with
  | nil =>
    rw [reduceEach_nil] at hok
    rw [← Except.ok.inj hok]
    rfl
  | cons v rest ih =>
    obtain ⟨outcome, others, -, hrest, rfl⟩ := reduceEach_cons_eq_ok.mp hok
    rw [List.length_cons, List.length_cons, ih hrest]

/-- The branches of a conditional give later what they give later, if the conditional has as many of
them now and then.  A list that some other call gives has no places for missing values. -/
theorem reduceBranches_staged {argument : Value}
    (h : (∀ items, argument ≠ .list items) → Staged d d' argument)
    (hitems : ∀ items, argument = .list items → ∀ v ∈ items, Staged d d' v)
    (hcleared : ∀ outcome, standard.reduce d' argument = .ok outcome → outcome.Clears d')
    (hclearedItems : ∀ items, argument = .list items → ∀ v ∈ items, ∀ outcome,
      standard.reduce d' v = .ok outcome → outcome.Clears d')
    {branches later : List Value}
    (hok : standard.reduceArgument d ifElse argument = .ok (.list branches))
    (hlater : standard.reduceArgument d' ifElse argument = .ok (.list later))
    (hlength : branches.length = later.length) :
    ∃ left, standard.reduceEach d' branches = .ok left ∧ later = left.map Outcome.kept ∧
      ∀ outcome ∈ left, outcome.Clears d' := by
  cases argument with
  | list items =>
    obtain ⟨outcomes, heach, heq⟩ := reduceArgument_list_eq_ok.mp hok
    obtain ⟨outcomes', heach', heq'⟩ := reduceArgument_list_eq_ok.mp hlater
    rw [Outcome.gathered_ifElse] at heq heq'
    obtain rfl := Value.list.inj heq
    obtain rfl := Value.list.inj heq'
    exact ⟨outcomes', (reduceEach_staged (hitems items rfl) heach heach').1, rfl,
      forall_mem_of_reduceEach (hclearedItems items rfl) heach'⟩
  | null | bool | int | double | string | map =>
    obtain ⟨outcome, hreduce, heq⟩ := (reduceArgument_eq_ok (by simp)).mp hok
    obtain ⟨outcome', hreduce', heq'⟩ := (reduceArgument_eq_ok (by simp)).mp hlater
    have hstaged := h (by simp) outcome outcome' hreduce hreduce'
    have hvalue := Outcome.eq_value_of_kept_eq_list heq'.symm
    rw [← heq] at hstaged
    obtain ⟨left, hleft, hleftEq⟩ := reduce_list_eq_ok.mp hstaged
    rw [hvalue] at hleftEq hreduce'
    obtain rfl := Value.list.inj (Outcome.value.inj hleftEq)
    have hkept := Outcome.map_kept_of_length (hlength.symm.trans (length_of_reduceEach hleft).symm)
    refine ⟨left, hleft, hkept.symm, fun outcome hmem v hv => ?_⟩
    exact (hcleared _ hreduce' _ rfl).of_mem_items (Outcome.mem_items.mpr (hv ▸ hmem))

end Intrinsic.Dispatch

end CloudTemplate
