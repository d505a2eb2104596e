import CloudTemplate.Proofs.Evaluation.Equations

/-!
# Evaluation without locations

What a value evaluates to does not depend on where it stands: a location only shows in the edges
that are noted and in the errors.  `Dispatch.reduce` evaluates by recursion on the value, without
locations, new names and edges; it leaves the calls that are up to the deployment as they are.
`Expander.result_evaluate` says that an expander without new names and placeholders gives the same
results, but for the locations of errors.
-/

namespace CloudTemplate

namespace Intrinsic

namespace Error

/-- The error without its location. -/
def unlocated (e : Error) : Error :=
  { e with location := none }

/-- Giving an error a location does not change the rest of it. -/
@[simp]
theorem unlocated_locatedAt (l : Location) (e : Error) :
    (e.locatedAt l).unlocated = e.unlocated := by
  unfold locatedAt
  split
  · rfl
  · split <;> rfl

@[simp]
theorem mapError_unlocated_locatedAt {α : Type} (l : Location) (x : Except Error α) :
    (x.mapError (locatedAt l)).mapError unlocated = x.mapError unlocated := by
  cases x with
  | error e => exact congrArg Except.error (unlocated_locatedAt l e)
  | ok a => rfl

end Error

end Intrinsic

/-- The entries that are left of evaluated ones: those with a value. -/
def Outcome.entries (outcomes : List (Text × Outcome)) : List (Text × Value) :=
  outcomes.flatMap fun named => named.2.entry named.1

theorem Outcome.entries_cons (name : Text) (outcome : Outcome) (others : List (Text × Outcome)) :
    entries ((name, outcome) :: others) = outcome.entry name ++ entries others :=
  List.flatMap_cons

namespace Outcome

/-- Items that all have values are left as they are. -/
theorem items_map_value (items : List Value) : (items.map value).flatMap item = items := by
  rw [List.flatMap_map]
  exact List.flatMap_singleton' items

theorem entries_map_value (fields : List (Text × Value)) :
    entries (fields.map fun entry => (entry.1, .value entry.2)) = fields := by
  rw [entries, List.flatMap_map]
  exact List.flatMap_singleton' fields

/-- The items that are left are the values. -/
theorem mem_items {outcomes : List Outcome} {v : Value} :
    v ∈ outcomes.flatMap item ↔ .value v ∈ outcomes := by
  rw [List.mem_flatMap]
  constructor
  · rintro ⟨outcome, hmem, hv⟩
    cases outcome with
    | value w => exact List.mem_singleton.mp hv ▸ hmem
    | noValue => nomatch hv
  · exact fun h => ⟨_, h, List.mem_singleton_self v⟩

theorem mem_entries {outcomes : List (Text × Outcome)} {entry : Text × Value} :
    entry ∈ entries outcomes ↔ (entry.1, .value entry.2) ∈ outcomes := by
  rw [entries, List.mem_flatMap]
  constructor
  · rintro ⟨⟨name, outcome⟩, hmem, hentry⟩
    cases outcome with
    | value w => exact List.mem_singleton.mp hentry ▸ hmem
    | noValue => nomatch hentry
  · exact fun h => ⟨_, h, List.mem_singleton_self entry⟩

end Outcome

namespace Intrinsic

namespace Dispatch

mutual

/-- Evaluate all calls in a value but those that are left to the deployment. -/
def reduce (table : Dispatch) (d : Deployment) : Value → Except Error Outcome
  | .map [(name, argument)] =>
    if isName name then
      if isDeferred name then .ok (.value (.call name argument))
      else
        (match argument with
          | .list items => Outcome.gathered name <$> reduceEach table d items
          | v => Outcome.kept <$> reduce table d v) >>= table.invoke d name
    else (fun outcome => .value (.map (outcome.entry name))) <$> reduce table d argument
  | .map entries =>
    (fun outcomes => .value (.map (Outcome.entries outcomes))) <$> reduceNamed table d entries
  | .list items =>
    (fun outcomes => .value (.list (outcomes.flatMap Outcome.item))) <$> reduceEach table d items
  | v => .ok (.value v)

/-- Evaluate the items of a list. -/
def reduceEach (table : Dispatch) (d : Deployment) : List Value → Except Error (List Outcome)
  | [] => .ok []
  | v :: rest => do
    let outcome ← reduce table d v
    let outcomes ← reduceEach table d rest
    return outcome :: outcomes

/-- Evaluate the entries of a map. -/
def reduceNamed (table : Dispatch) (d : Deployment) :
    List (Text × Value) → Except Error (List (Text × Outcome))
  | [] => .ok []
  | (name, v) :: rest => do
    let outcome ← reduce table d v
    let outcomes ← reduceNamed table d rest
    return (name, outcome) :: outcomes

end

/-- Evaluate the argument of a call. -/
def reduceArgument (table : Dispatch) (d : Deployment) (function : Text) :
    Value → Except Error Value
  | .list items => Outcome.gathered function <$> reduceEach table d items
  | v => Outcome.kept <$> reduce table d v

variable {table : Dispatch} {d : Deployment}

/-! ### One equation for each kind of node -/

theorem reduce_atom {v : Value} (h : v.isAtom = true) : table.reduce d v = .ok (.value v) := by
  cases v with
  | null | bool | int | double | string => rw [reduce] <;> simp
  | list | map => nomatch h

theorem reduce_list (items : List Value) :
    table.reduce d (.list items) =
      (fun outcomes => .value (.list (outcomes.flatMap Outcome.item))) <$>
        table.reduceEach d items := by
  rw [reduce]

/-- A map that is no call is evaluated entry by entry. -/
theorem reduce_plain {entries : List (Text × Value)} (h : call? entries = none) :
    table.reduce d (.map entries) =
      (fun outcomes => .value (.map (Outcome.entries outcomes))) <$>
        table.reduceNamed d entries := by
  match entries, h with
  | [], _ => rw [reduce]; simp
  | _ :: _ :: _, _ => rw [reduce]; simp
  | [(name, argument)], h =>
    have hname : ¬ isName name = true := fun hname => by simp [call?, hname] at h
    rw [reduce.eq_def]
    simp only [if_neg hname, reduceNamed]
    cases table.reduce d argument with
    | error e => rfl
    | ok outcome =>
      change _ = Except.ok (Outcome.value (.map (outcome.entry name ++ [])))
      rw [List.append_nil]
      rfl

theorem reduce_deferred {function : Text} {argument : Value} (h : isName function = true)
    (hd : isDeferred function = true) :
    table.reduce d (.call function argument) = .ok (.value (.call function argument)) := by
  rw [Value.call, reduce.eq_def]
  simp only [if_pos h, if_pos hd, Value.call]

theorem reduce_call {function : Text} {argument : Value} (h : isName function = true)
    (hd : isDeferred function = false) :
    table.reduce d (.call function argument) =
      table.reduceArgument d function argument >>= table.invoke d function := by
  rw [Value.call, reduce.eq_def]
  simp only [if_pos h, hd, Bool.false_eq_true, if_false]
  cases argument <;> rfl

/-! ### When an evaluation succeeds -/

theorem reduceEach_nil : table.reduceEach d [] = .ok [] := by
  rw [reduceEach]

theorem reduceNamed_nil : table.reduceNamed d [] = .ok [] := by
  rw [reduceNamed]

theorem reduceEach_cons_eq_ok {v : Value} {rest : List Value} {outcomes : List Outcome} :
    table.reduceEach d (v :: rest) = .ok outcomes ↔
      ∃ outcome others, table.reduce d v = .ok outcome ∧ table.reduceEach d rest = .ok others ∧
        outcomes = outcome :: others := by
  simp only [reduceEach, bind_pure_comp, bind_map_eq_ok]

theorem reduceNamed_cons_eq_ok {entry : Text × Value} {rest : List (Text × Value)}
    {outcomes : List (Text × Outcome)} :
    table.reduceNamed d (entry :: rest) = .ok outcomes ↔
      ∃ outcome others, table.reduce d entry.2 = .ok outcome ∧
        table.reduceNamed d rest = .ok others ∧ outcomes = (entry.1, outcome) :: others := by
  simp only [reduceNamed, bind_pure_comp, bind_map_eq_ok]

/-- What holds of all outcomes that items can have holds of those that they have. -/
theorem forall_mem_of_reduceEach {P : Outcome → Prop} {items : List Value}
    {outcomes : List Outcome}
    (h : ∀ v ∈ items, ∀ outcome, table.reduce d v = .ok outcome → P outcome)
    (hok : table.reduceEach d items = .ok outcomes) : ∀ outcome ∈ outcomes, P outcome := by
  induction items generalizing outcomes with
  | nil =>
    rw [reduceEach_nil] at hok
    obtain rfl := Except.ok.inj hok
    simp
  | cons v rest ih =>
    obtain ⟨outcome, others, hv, hrest, rfl⟩ := reduceEach_cons_eq_ok.mp hok
    rw [List.forall_mem_cons]
    exact ⟨h v List.mem_cons_self outcome hv,
      ih (fun u hu => h u (List.mem_cons_of_mem _ hu)) hrest⟩

theorem forall_mem_of_reduceNamed {P : Text × Outcome → Prop} {entries : List (Text × Value)}
    {outcomes : List (Text × Outcome)}
    (h : ∀ entry ∈ entries, ∀ outcome, table.reduce d entry.2 = .ok outcome → P (entry.1, outcome))
    (hok : table.reduceNamed d entries = .ok outcomes) : ∀ named ∈ outcomes, P named := by
  induction entries generalizing outcomes with
  | nil =>
    rw [reduceNamed_nil] at hok
    obtain rfl := Except.ok.inj hok
    simp
  | cons entry rest ih =>
    obtain ⟨outcome, others, hv, hrest, rfl⟩ := reduceNamed_cons_eq_ok.mp hok
    rw [List.forall_mem_cons]
    exact ⟨h entry List.mem_cons_self outcome hv,
      ih (fun other hother => h other (List.mem_cons_of_mem _ hother)) hrest⟩

theorem reduce_list_eq_ok {items : List Value} {outcome : Outcome} :
    table.reduce d (.list items) = .ok outcome ↔
      ∃ outcomes, table.reduceEach d items = .ok outcomes ∧
        outcome = .value (.list (outcomes.flatMap Outcome.item)) := by
  rw [reduce_list, map_eq_ok]
  simp only [eq_comm]

theorem reduce_plain_eq_ok {entries : List (Text × Value)} (h : call? entries = none)
    {outcome : Outcome} :
    table.reduce d (.map entries) = .ok outcome ↔
      ∃ outcomes, table.reduceNamed d entries = .ok outcomes ∧
        outcome = .value (.map (Outcome.entries outcomes)) := by
  rw [reduce_plain h, map_eq_ok]
  simp only [eq_comm]

theorem reduce_call_eq_ok {function : Text} {argument : Value} (h : isName function = true)
    (hd : isDeferred function = false) {outcome : Outcome} :
    table.reduce d (.call function argument) = .ok outcome ↔
      ∃ evaluated, table.reduceArgument d function argument = .ok evaluated ∧
        table.invoke d function evaluated = .ok outcome := by
  rw [reduce_call h hd, bind_eq_ok]

theorem reduceArgument_list_eq_ok {function : Text} {items : List Value} {evaluated : Value} :
    table.reduceArgument d function (.list items) = .ok evaluated ↔
      ∃ outcomes, table.reduceEach d items = .ok outcomes ∧
        evaluated = Outcome.gathered function outcomes := by
  rw [reduceArgument, map_eq_ok]
  simp only [eq_comm]

theorem reduceArgument_eq_ok {function : Text} {argument evaluated : Value}
    (h : ∀ items, argument ≠ .list items) :
    table.reduceArgument d function argument = .ok evaluated ↔
      ∃ outcome, table.reduce d argument = .ok outcome ∧ evaluated = outcome.kept := by
  rw [reduceArgument]
  · rw [map_eq_ok]
    simp only [eq_comm]
  · exact h

/-- Where no place has to be kept, an argument is evaluated like any other value. -/
theorem reduceArgument_eq_ok_of_ne_ifElse {function : Text} (h : function ≠ ifElse)
    {argument evaluated : Value} :
    table.reduceArgument d function argument = .ok evaluated ↔
      ∃ outcome, table.reduce d argument = .ok outcome ∧ evaluated = outcome.kept := by
  cases argument with
  | list items =>
    simp only [reduceArgument_list_eq_ok, reduce_list_eq_ok, Outcome.gathered_of_ne h]
    constructor
    · rintro ⟨outcomes, heach, rfl⟩
      exact ⟨_, ⟨outcomes, heach, rfl⟩, rfl⟩
    · rintro ⟨_, ⟨outcomes, heach, rfl⟩, rfl⟩
      exact ⟨outcomes, heach, rfl⟩
  | null | bool | int | double | string | map => exact reduceArgument_eq_ok (by simp)

/-- The errors of handlers have no location. -/
@[simp]
theorem mapError_unlocated_invoke (function : Text) (argument : Value) :
    (table.invoke d function argument).mapError Error.unlocated =
      table.invoke d function argument := by
  unfold invoke
  split
  · rfl
  · split <;> rfl

end Dispatch

end Intrinsic

namespace Expander

open Intrinsic (Error isName isDeferred)

variable {e : Expander}

/-- The walk gives the result of the reduction wherever the value stands. -/
def ReducesEverywhere (e : Expander) (v : Value) : Prop :=
  ∀ l, (e.evaluate l v).result.mapError Error.unlocated = e.dispatch.reduce e.deployment v

theorem result_evaluateEach {items : List Value} (h : ∀ v ∈ items, e.ReducesEverywhere v)
    (l : Location) (index : Nat) :
    (e.evaluateEach l index items).result.mapError Error.unlocated =
      e.dispatch.reduceEach e.deployment items := by
  induction items generalizing index with
  | nil =>
    rw [evaluateEach]
    rfl
  | cons v rest ih =>
    rw [evaluateEach, Intrinsic.Dispatch.reduceEach, ← h v List.mem_cons_self (l.item index),
      ← ih (fun u hu => h u (List.mem_cons_of_mem _ hu)) (index + 1)]
    simp

theorem result_evaluateEntries {entries : List (Text × Value)}
    (h : ∀ entry ∈ entries, e.ReducesEverywhere entry.2) (l : Location) :
    (e.evaluateEntries l entries).result.mapError Error.unlocated =
      Outcome.entries <$> e.dispatch.reduceNamed e.deployment entries := by
  induction entries with
  | nil =>
    rw [evaluateEntries]
    rfl
  | cons entry rest ih =>
    rw [evaluateEntries, Intrinsic.Dispatch.reduceNamed]
    simp [ih fun other hother => h other (List.mem_cons_of_mem _ hother),
      h entry List.mem_cons_self (l.entry entry.1), Outcome.entries]

theorem result_evaluateArgument {argument : Value} (h : e.ReducesEverywhere argument)
    (hitems : ∀ items, argument = .list items → ∀ v ∈ items, e.ReducesEverywhere v)
    (l : Location) (function : Text) :
    (e.evaluateArgument l function argument).result.mapError Error.unlocated =
      e.dispatch.reduceArgument e.deployment function argument := by
  cases argument with
  | list items =>
    rw [evaluateArgument_list, Intrinsic.Dispatch.reduceArgument,
      ← result_evaluateEach (hitems items rfl) l 0]
    simp
  | null | bool | int | double | string | map =>
    rw [evaluateArgument_of_ne_list, Intrinsic.Dispatch.reduceArgument, ← h l] <;> simp

/-- **Locations do not matter.**  Without new names and placeholders the walk gives the result of
the reduction, or the same error at a location. -/
theorem result_evaluate (hr : e.renames = []) (hp : e.placeholders = .empty) (v : Value) :
    e.ReducesEverywhere v := by
  induction v using Value.induction with
  | atom v hv =>
    intro l
    rw [evaluate_atom hv, Intrinsic.Dispatch.reduce_atom hv]
    rfl
  | list items ih =>
    intro l
    rw [evaluate_list, Intrinsic.Dispatch.reduce_list, ← result_evaluateEach ih l 0]
    simp
  | plain entries hcall ih =>
    intro l
    rw [evaluate_plain hcall, Intrinsic.Dispatch.reduce_plain hcall]
    simp [result_evaluateEntries ih l]
  | call function argument hname ih ihs =>
    intro l
    rw [evaluate_call hname]
    cases hd : isDeferred function with
    | true =>
      rw [evaluateCall_verbatim (by rw [isVerbatim_of_placeholders_empty hp, hd]),
        Intrinsic.Dispatch.reduce_deferred hname hd]
      rfl
    | false =>
      rw [evaluateCall_eq (by rw [isVerbatim_of_placeholders_empty hp, hd]),
        Intrinsic.Dispatch.reduce_call hname hd, renameIn_of_renames_nil hr,
        ← result_evaluateArgument ih ihs (l.entry function) function]
      simp only [Recorded.result_bind, Recorded.result_noteAll, Recorded.result_mapError,
        Recorded.result_ofExcept, mapError_bind, Error.mapError_unlocated_locatedAt,
        Intrinsic.Dispatch.mapError_unlocated_invoke]
      rfl

/-- Where a value stands makes no difference to whether it resolves, and to what. -/
theorem resolve_eq_ok (hr : e.renames = []) (hp : e.placeholders = .empty) {v : Value}
    {l : Location} {outcome : Outcome} :
    (e.resolve v l).1 = .ok outcome ↔ e.dispatch.reduce e.deployment v = .ok outcome := by
  rw [resolve, keep, ← mapError_eq_ok, result_evaluate hr hp]

/-- An expander with the standard table and without new names and placeholders. -/
structure IsStandard (e : Expander) : Prop where
  dispatch : e.dispatch = .standard
  renames : e.renames = []
  placeholders : e.placeholders = .empty

theorem resolve_eq_ok_iff (h : e.IsStandard) {v : Value} {l : Location} {outcome : Outcome} :
    (e.resolve v l).1 = .ok outcome ↔
      Intrinsic.Dispatch.standard.reduce e.deployment v = .ok outcome := by
  rw [resolve_eq_ok h.renames h.placeholders, h.dispatch]

end Expander

end CloudTemplate
