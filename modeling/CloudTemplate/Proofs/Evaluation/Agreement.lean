import CloudTemplate.Proofs.Evaluation.Reduction

/-!
# The two evaluators agree

`Dispatch.evaluate` evaluates the calls in a value with a table of handlers alone; an expander walks
through the same value with locations, and notes edges on the way.  The two differ only in the calls
that an expander leaves to the deployment, and where an error says that it arose.

## Main results

* `Expander.resolve_eq_evaluate`: on a value without such calls, an expander without new names and
  placeholders gives what its table gives, but for the locations of errors.
-/

namespace CloudTemplate

namespace Intrinsic.Dispatch

variable {table : Dispatch} {d : Deployment}

/-! ### One equation for each kind of node -/

theorem evaluate_atom {v : Value} (h : v.isAtom = true) : table.evaluate d v = .ok (.value v) := by
  cases v with
  | null | bool | int | double | string => rw [evaluate] <;> simp
  | list | map => nomatch h

theorem evaluate_plain {entries : List (Text × Value)} (h : call? entries = none) :
    table.evaluate d (.map entries) =
      (fun entries => .value (.map entries)) <$> table.evaluateEntries d entries := by
  rw [map_eq_pure_bind]
  match entries, h with
  | [], _ => rw [evaluate]; simp
  | _ :: _ :: _, _ => rw [evaluate]; simp
  | [(name, argument)], h =>
    have hname : ¬ isName name = true := fun hname => by simp [call?, hname] at h
    rw [evaluate.eq_def]
    simp only [if_neg hname, evaluateEntries]
    cases table.evaluate d argument with
    | error e => rfl
    | ok outcome =>
      change _ = Except.ok (Outcome.value (.map (outcome.entry name ++ [])))
      rw [List.append_nil]
      rfl

theorem evaluate_call_list {function : Text} {items : List Value} (h : isName function = true) :
    table.evaluate d (.call function (.list items)) =
      (if function = ifElse then Value.list <$> table.evaluateBranches d items
        else Value.list <$> table.evaluateItems d items) >>= table.invoke d function := by
  rw [Value.call, evaluate, if_pos h]
  by_cases hif : function = ifElse <;> simp only [hif, if_true, if_false]

theorem evaluate_call {function : Text} {argument : Value} (h : isName function = true)
    (hlist : ∀ items, argument ≠ .list items) :
    table.evaluate d (.call function argument) =
      Outcome.kept <$> table.evaluate d argument >>= table.invoke d function := by
  rw [Value.call, evaluate, if_pos h]
  cases argument with
  | list items => exact absurd rfl (hlist items)
  | null | bool | int | double | string | map => rfl

/-! ### Values without calls that are left to the deployment -/

/-- Both evaluators of a table agree on a value. -/
def Agrees (table : Dispatch) (d : Deployment) (v : Value) : Prop :=
  table.reduce d v = table.evaluate d v

theorem evaluateItems_eq {items : List Value} (h : ∀ v ∈ items, table.Agrees d v) :
    table.evaluateItems d items = List.flatMap Outcome.item <$> table.reduceEach d items := by
  induction items with
  | nil => rw [evaluateItems, reduceEach]; rfl
  | cons v rest ih =>
    rw [evaluateItems, reduceEach, h v List.mem_cons_self,
      ih fun u hu => h u (List.mem_cons_of_mem _ hu)]
    simp only [map_bind, map_pure, bind_map_left, List.flatMap_cons]

theorem evaluateBranches_eq {items : List Value} (h : ∀ v ∈ items, table.Agrees d v) :
    table.evaluateBranches d items = List.map Outcome.kept <$> table.reduceEach d items := by
  induction items with
  | nil => rw [evaluateBranches, reduceEach]; rfl
  | cons v rest ih =>
    rw [evaluateBranches, reduceEach, h v List.mem_cons_self,
      ih fun u hu => h u (List.mem_cons_of_mem _ hu)]
    simp only [map_bind, map_pure, bind_map_left, List.map_cons]

theorem evaluateEntries_eq {entries : List (Text × Value)}
    (h : ∀ entry ∈ entries, table.Agrees d entry.2) :
    table.evaluateEntries d entries = Outcome.entries <$> table.reduceNamed d entries := by
  induction entries with
  | nil => rw [evaluateEntries, reduceNamed]; rfl
  | cons entry rest ih =>
    rw [evaluateEntries, reduceNamed, h entry List.mem_cons_self,
      ih fun other hother => h other (List.mem_cons_of_mem _ hother)]
    simp only [map_bind, map_pure, bind_map_left, Outcome.entries, List.flatMap_cons]

/-- Where no call is left to the deployment, leaving such calls as they are makes no difference. -/
theorem reduce_eq_evaluate {v : Value} (h : ∀ n ∈ v.nodes, n.isDeferredCall = false) :
    table.reduce d v = table.evaluate d v := by
  induction v using Value.induction with
  | atom v hv => rw [reduce_atom hv, evaluate_atom hv]
  | list items ih =>
    have hitems : ∀ v ∈ items, table.Agrees d v := fun v hv =>
      ih v hv fun n hn => h n (Value.nodes_subset_list hv hn)
    rw [reduce_list, evaluate, evaluateItems_eq hitems, bind_map_left, map_eq_pure_bind]
  | plain entries hcall ih =>
    have hentries : ∀ entry ∈ entries, table.Agrees d entry.2 := fun entry hentry =>
      ih entry hentry fun n hn => h n (Value.nodes_subset_map hentry hn)
    rw [reduce_plain hcall, evaluate_plain hcall, evaluateEntries_eq hentries, Functor.map_map]
  | call function argument hname ih ihs =>
    have hd : isDeferred function = false := h _ (Value.mem_nodes_self _)
    have harg : ∀ n ∈ argument.nodes, n.isDeferredCall = false := fun n hn =>
      h n (Value.nodes_subset_call hn)
    rw [reduce_call hname hd]
    cases argument with
    | list items =>
      have hitems : ∀ v ∈ items, table.Agrees d v := fun v hv =>
        ihs items rfl v hv fun n hn => harg n (Value.nodes_subset_list hv hn)
      rw [evaluate_call_list hname, reduceArgument, evaluateItems_eq hitems,
        evaluateBranches_eq hitems, Functor.map_map, Functor.map_map]
      by_cases hif : function = ifElse
      · rw [if_pos hif, hif, funext Outcome.gathered_ifElse]
      · rw [if_neg hif, funext (Outcome.gathered_of_ne hif)]
    | null | bool | int | double | string | map =>
      rw [evaluate_call hname (by simp), reduceArgument, ih harg]
      simp

end Intrinsic.Dispatch

namespace Expander

open Intrinsic (Error)

/-- **The two evaluators agree.**  Take an expander without new names and placeholders and a value
without calls that are left to the deployment.  Wherever the value stands, the expander gives the
value that its table of handlers gives, or no value if the table gives none, or the table's error
but for the location. -/
theorem resolve_eq_evaluate (e : Expander) (hr : e.renames = []) (hp : e.placeholders = .empty)
    (v : Value) (h : ∀ n ∈ v.nodes, n.isDeferredCall = false) (l : Location) :
    (e.resolve v l).1.mapError Error.unlocated = e.dispatch.evaluate e.deployment v := by
  rw [resolve, keep, result_evaluate hr hp v l, Intrinsic.Dispatch.reduce_eq_evaluate h]

/-- A join that is carried out, with an item that disappears. -/
theorem resolve_eq_evaluate_of_eager_join :
    let e : Expander := { dispatch := Intrinsic.Dispatch.standard.withEagerJoin }
    let items : List Value :=
      [.string "a", .call Intrinsic.ref (.string Pseudo.region), .noValueRef]
    let v : Value := .call Intrinsic.join (.list [.string "-", .list items])
    e.renames = [] ∧ e.placeholders = .empty ∧ (∀ n ∈ v.nodes, n.isDeferredCall = false) ∧
      (e.resolve v ⟨"Outputs.Name.Value"⟩).1.mapError Error.unlocated =
        .ok (.value (.string "a-us-east-1")) := by
  intro e items v
  have hv : ∀ n ∈ v.nodes, n.isDeferredCall = false := by decide
  have hjoin : e.dispatch.evaluate e.deployment v = .ok (.value (.string "a-us-east-1")) := by rfl
  exact ⟨rfl, rfl, hv, (e.resolve_eq_evaluate rfl rfl v hv _).trans hjoin⟩

end Expander

end CloudTemplate
