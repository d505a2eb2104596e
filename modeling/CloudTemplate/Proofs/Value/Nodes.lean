import CloudTemplate.Intrinsic

/-!
# The nodes of a value

`Value.nodes` lists a value and everything inside it.  Most facts about evaluation are proved by
`Value.induction`, which tells four kinds of nodes apart: atoms, lists, maps that are no calls, and
calls.  The items of a list that is the argument of a call are nodes of their own there, since the
branches of a conditional are evaluated one by one.
-/

namespace CloudTemplate

namespace Intrinsic

/-- Whether the calls of a function are left to the deployment whatever their argument. -/
def isDeferred (function : Text) : Bool :=
  function = importValue || function = getAZs

theorem isName_ref : isName ref = true := by decide

theorem isName_getAtt : isName getAtt = true := by decide

theorem isName_of_isDeferred {function : Text} (h : isDeferred function = true) :
    isName function = true := by
  simp only [isDeferred, Bool.or_eq_true, decide_eq_true_eq] at h
  rcases h with rfl | rfl <;> decide

/-- A function whose calls are evaluated is not one whose calls are left to the deployment. -/
theorem ne_of_isDeferred {function other : Text} (h : isDeferred other = false)
    (hfunction : isDeferred function = true) : other ≠ function := by
  rintro rfl
  rw [h] at hfunction
  cases hfunction

end Intrinsic

namespace Value

/-- Whether a value is neither a list nor a map. -/
def isAtom : Value → Bool
  | .list _ | .map _ => false
  | _ => true

/-- Whether a value is a call of an intrinsic function. -/
def isCall : Value → Bool
  | .map entries => (Intrinsic.call? entries).isSome
  | _ => false

/-- Whether a value is a call that is left to the deployment whatever its argument. -/
def isDeferredCall : Value → Bool
  | .map [(name, _)] => Intrinsic.isDeferred name
  | _ => false

mutual

/-- A value and everything inside it, each node before its contents. -/
def nodes : Value → List Value
  | .list items => .list items :: nodesOfItems items
  | .map entries => .map entries :: nodesOfEntries entries
  | v => [v]

/-- The nodes of the items of a list. -/
def nodesOfItems : List Value → List Value
  | [] => []
  | v :: rest => nodes v ++ nodesOfItems rest

/-- The nodes of the values in the entries of a map. -/
def nodesOfEntries : List (Text × Value) → List Value
  | [] => []
  | (_, v) :: rest => nodes v ++ nodesOfEntries rest

end

theorem mem_nodes_self (v : Value) : v ∈ v.nodes := by
  cases v <;> simp [nodes]

theorem mem_nodesOfItems {n : Value} {items : List Value} :
    n ∈ nodesOfItems items ↔ ∃ v ∈ items, n ∈ v.nodes := by
  induction items with
  | nil => simp [nodesOfItems]
  | cons v rest ih => simp [nodesOfItems, ih]

theorem mem_nodesOfEntries {n : Value} {entries : List (Text × Value)} :
    n ∈ nodesOfEntries entries ↔ ∃ entry ∈ entries, n ∈ entry.2.nodes := by
  induction entries with
  | nil => simp [nodesOfEntries]
  | cons entry rest ih => simp [nodesOfEntries, ih]

theorem mem_nodes_list {n : Value} {items : List Value} :
    n ∈ (Value.list items).nodes ↔ n = .list items ∨ ∃ v ∈ items, n ∈ v.nodes := by
  rw [nodes, List.mem_cons, mem_nodesOfItems]

theorem mem_nodes_map {n : Value} {entries : List (Text × Value)} :
    n ∈ (Value.map entries).nodes ↔ n = .map entries ∨ ∃ entry ∈ entries, n ∈ entry.2.nodes := by
  rw [nodes, List.mem_cons, mem_nodesOfEntries]

theorem mem_nodes_call {n : Value} {function : Text} {argument : Value} :
    n ∈ (call function argument).nodes ↔ n = .call function argument ∨ n ∈ argument.nodes := by
  rw [call, mem_nodes_map]
  simp

/-- The nodes of an item are nodes of the list. -/
theorem nodes_subset_list {v : Value} {items : List Value} (h : v ∈ items) :
    v.nodes ⊆ (list items).nodes :=
  fun _ hn => mem_nodes_list.mpr (.inr ⟨v, h, hn⟩)

/-- The nodes of the value in an entry are nodes of the map. -/
theorem nodes_subset_map {entry : Text × Value} {entries : List (Text × Value)}
    (h : entry ∈ entries) : entry.2.nodes ⊆ (map entries).nodes :=
  fun _ hn => mem_nodes_map.mpr (.inr ⟨entry, h, hn⟩)

theorem nodes_subset_call {function : Text} {argument : Value} :
    argument.nodes ⊆ (call function argument).nodes :=
  fun _ hn => mem_nodes_call.mpr (.inr hn)

end Value

namespace Intrinsic

/-- What is read as a call has a single entry, the name of which is that of a function. -/
theorem call?_eq_some_iff {entries : Fields Value} {function : Text} {argument : Value} :
    call? entries = some (function, argument) ↔
      entries = [(function, argument)] ∧ isName function = true := by
  constructor
  · intro h
    unfold call? at h
    split at h
    · next name _ =>
      by_cases hname : isName name = true
      · rw [if_pos hname] at h
        obtain ⟨rfl, rfl⟩ := Prod.mk.inj (Option.some.inj h)
        exact ⟨rfl, hname⟩
      · rw [if_neg hname] at h
        nomatch h
    · nomatch h
  · rintro ⟨rfl, hname⟩
    exact if_pos hname

theorem call?_call {function : Text} (argument : Value) (h : isName function = true) :
    call? [(function, argument)] = some (function, argument) :=
  call?_eq_some_iff.mpr ⟨rfl, h⟩

/-- The only name in a map that is no call is not that of a function. -/
theorem not_isName_of_call?_eq_none {name : Text} {v : Value} (h : call? [(name, v)] = none) :
    isName name = false := by
  refine Bool.eq_false_iff.mpr fun hname => ?_
  rw [call?_call v hname] at h
  cases h

/-- Whether a map is a call depends on its names only. -/
theorem call?_eq_none_of_names {entries others : List (Text × Value)}
    (hnames : others.map Prod.fst = entries.map Prod.fst) (h : call? entries = none) :
    call? others = none := by
  match others, entries with
  | [], _ | _ :: _ :: _, _ => rfl
  | [(name, v)], [(key, u)] =>
    obtain rfl : name = key := List.singleton_inj.mp hnames
    rw [call?, not_isName_of_call?_eq_none h, if_neg Bool.false_ne_true]
  | [_], [] | [_], _ :: _ :: _ => simp at hnames

end Intrinsic

namespace Value

/-- A map that is no call is not left to the deployment. -/
theorem isDeferredCall_of_plain {entries : List (Text × Value)}
    (h : Intrinsic.call? entries = none) : (map entries).isDeferredCall = false := by
  unfold isDeferredCall
  split
  · next name argument heq =>
    obtain rfl := map.inj heq
    refine Bool.eq_false_iff.mpr fun hd => ?_
    rw [Intrinsic.call?_call argument (Intrinsic.isName_of_isDeferred hd)] at h
    nomatch h
  · rfl

theorem isCall_call {function : Text} {argument : Value} (h : Intrinsic.isName function = true) :
    (call function argument).isCall = true := by
  rw [call, isCall, Intrinsic.call?_call argument h, Option.isSome_some]

theorem size_lt_of_mem_items {v : Value} {items : List Value} (h : v ∈ items) :
    v.size < (list items).size := by
  rw [size]
  induction items with
  | nil => simp at h
  | cons u rest ih =>
    rw [sizeItems]
    rcases List.mem_cons.mp h with rfl | h
    · omega
    · have := ih h
      omega

theorem size_lt_of_mem_entries {entry : Text × Value} {entries : List (Text × Value)}
    (h : entry ∈ entries) : entry.2.size < (map entries).size := by
  rw [size]
  induction entries with
  | nil => simp at h
  | cons first rest ih =>
    rw [sizeEntries]
    rcases List.mem_cons.mp h with rfl | h
    · omega
    · have := ih h
      omega

/-- **Induction on values.**  Atoms, lists, maps that are no calls, and calls. -/
@[elab_as_elim]
theorem induction {P : Value → Prop} (atom : ∀ v, v.isAtom = true → P v)
    (list : ∀ items, (∀ v ∈ items, P v) → P (.list items))
    (plain : ∀ entries, Intrinsic.call? entries = none → (∀ entry ∈ entries, P entry.2) →
      P (.map entries))
    (call : ∀ function argument, Intrinsic.isName function = true → P argument →
      (∀ items, argument = .list items → ∀ v ∈ items, P v) → P (.call function argument))
    (v : Value) : P v := by
  induction hsize : v.size using Nat.strongRecOn generalizing v with
  | ind n ih =>
    subst hsize
    cases v with
    | null | bool | int | double | string => exact atom _ rfl
    | list items => exact list items fun u hu => ih _ (size_lt_of_mem_items hu) u rfl
    | map entries =>
      cases h : Intrinsic.call? entries with
      | none => exact plain entries h fun e he => ih _ (size_lt_of_mem_entries he) e.2 rfl
      | some pair =>
        obtain ⟨function, argument⟩ := pair
        obtain ⟨rfl, hname⟩ := Intrinsic.call?_eq_some_iff.mp h
        have hmem : (function, argument) ∈ [(function, argument)] := List.mem_cons_self
        have hlt : argument.size < (map [(function, argument)]).size :=
          size_lt_of_mem_entries hmem
        refine call function argument hname (ih _ hlt argument rfl) ?_
        rintro items rfl u hu
        exact ih _ (Nat.lt_trans (size_lt_of_mem_items hu) hlt) u rfl

end Value

end CloudTemplate
