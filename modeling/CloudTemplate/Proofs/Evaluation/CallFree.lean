import CloudTemplate.Proofs.Evaluation.Invocation
import CloudTemplate.Proofs.Evaluation.Reduction
import CloudTemplate.Proofs.Value.Dollars

/-!
# Values without calls

A value without calls evaluates to itself (`Dispatch.reduce_of_isCallFree`).  A map without the
names of functions is no call, and what is left of it when its entries are evaluated is none either
(`Dispatch.not_isName_of_reduceNamed`).

`Deployment.HoldsNoCalls` says of all that is known of a deployment that it holds no calls, and
`Deployment.IsPlain` that it holds no dollar signs either.
-/

namespace CloudTemplate

open Intrinsic (isName call?)

namespace Value

/-! ### Values without calls -/

/-- No call stands anywhere in a value. -/
def IsCallFree (v : Value) : Prop :=
  ∀ n ∈ v.nodes, n.isCall = false

instance (v : Value) : Decidable v.IsCallFree :=
  inferInstanceAs (Decidable (∀ n ∈ v.nodes, n.isCall = false))

theorem IsCallFree.of_mem_items {items : List Value} (h : (list items).IsCallFree) {v : Value}
    (hv : v ∈ items) : v.IsCallFree :=
  fun n hn => h n (nodes_subset_list hv hn)

theorem IsCallFree.of_mem_entries {entries : List (Text × Value)} (h : (map entries).IsCallFree)
    {entry : Text × Value} (hentry : entry ∈ entries) : entry.2.IsCallFree :=
  fun n hn => h n (nodes_subset_map hentry hn)

theorem isCallFree_of_isAtom {v : Value} (h : v.isAtom = true) : v.IsCallFree := by
  cases v with
  | null | bool | int | double | string => simp [IsCallFree, nodes, isCall]
  | list | map => exact absurd h Bool.false_ne_true

theorem isCallFree_list {items : List Value} (h : ∀ v ∈ items, v.IsCallFree) :
    (list items).IsCallFree := by
  intro n hn
  rcases mem_nodes_list.mp hn with rfl | ⟨v, hv, hn⟩
  · rfl
  · exact h v hv n hn

theorem isCallFree_ofStrings (texts : List Text) : (ofStrings texts).IsCallFree := by
  refine isCallFree_list fun v hv => ?_
  obtain ⟨t, -, rfl⟩ := List.mem_map.mp hv
  exact isCallFree_of_isAtom rfl

theorem not_isCallFree_call {function : Text} {argument : Value} (h : isName function = true) :
    ¬ (call function argument).IsCallFree := by
  intro hfree
  have := hfree _ (mem_nodes_self _)
  rw [isCall_call h] at this
  nomatch this

/-- Whether a value is a map with several entries, one of which has the name of a function. -/
def isMixed : Value → Bool
  | .map entries => decide (2 ≤ entries.length) && entries.any fun entry => isName entry.1
  | _ => false

/-- No entry of a map that is no call has the name of a function, unless the map is mixed. -/
theorem not_isName_of_plain {entries : List (Text × Value)} (hcall : call? entries = none)
    (hmixed : (map entries).isMixed = false) : ∀ entry ∈ entries, isName entry.1 = false := by
  match entries, hcall with
  | [], _ => simp
  | [(name, v)], hcall => simpa using Intrinsic.not_isName_of_call?_eq_none hcall
  | _ :: _ :: _, _ => simpa [isMixed] using hmixed

/-- A map in which no name is that of a function is no call. -/
theorem call?_of_not_isName {entries : List (Text × Value)}
    (h : ∀ entry ∈ entries, isName entry.1 = false) : call? entries = none := by
  refine Option.eq_none_iff_forall_not_mem.mpr fun ⟨function, argument⟩ hcall => ?_
  obtain ⟨rfl, hname⟩ := Intrinsic.call?_eq_some_iff.mp hcall
  rw [h _ List.mem_cons_self] at hname
  nomatch hname

theorem isNoValueRef_iff {v : Value} : v.isNoValueRef = true ↔ v = noValueRef := by
  constructor
  · intro h
    unfold isNoValueRef at h
    split at h
    · next name argument =>
      obtain ⟨hname, hargument⟩ := Bool.and_eq_true_iff.mp h
      rw [of_decide_eq_true hname, of_decide_eq_true hargument]
      rfl
    · nomatch h
  · rintro rfl
    rfl

end Value

namespace Outcome

theorem kept_ofBranch (v : Value) : (ofBranch v).kept = v := by
  rw [ofBranch]
  split
  · next h => exact (Value.isNoValueRef_iff.mp h).symm
  · rfl

end Outcome

namespace Deployment

/-- Nothing that is known of a deployment holds a call. -/
structure HoldsNoCalls (d : Deployment) : Prop where
  parameters : ∀ {name v}, d.parameters.get? name = some v → v.IsCallFree
  attributes : ∀ {resource attr v}, d.attribute? resource attr = some v → v.IsCallFree
  mappings : ∀ {name topKey secondKey v}, Intrinsic.findEntry d name topKey secondKey = .ok v →
    v.IsCallFree

/-- Nothing that is known of a deployment holds a call or a dollar sign. -/
structure IsPlain (d : Deployment) : Prop where
  pseudo : ∀ {name t}, d.pseudo.get? name = some t → dollar ∉ t
  parameters : ∀ {name v}, d.parameters.get? name = some v → v.IsCallFree ∧ v.isDollarFree = true
  attributes : ∀ {resource attr v}, d.attribute? resource attr = some v →
    v.IsCallFree ∧ v.isDollarFree = true
  mappings : ∀ {name topKey secondKey v}, Intrinsic.findEntry d name topKey secondKey = .ok v →
    v.IsCallFree ∧ v.isDollarFree = true

section Plain

variable {d : Deployment}

theorem IsPlain.holdsNoCalls (h : d.IsPlain) : d.HoldsNoCalls where
  parameters hv := (h.parameters hv).1
  attributes hv := (h.attributes hv).1
  mappings hv := (h.mappings hv).1

/-- What is known from the start is plain. -/
theorem isPlain_default : ({} : Deployment).IsPlain where
  pseudo {name t} ht := by
    have hall : ∀ entry ∈ Pseudo.defaults, dollar ∉ entry.2 := by decide +kernel
    exact hall _ (Fields.mem_of_get? ht)
  parameters hv := by cases hv
  attributes hv := by cases hv
  mappings hv := by cases hv

theorem IsPlain.setCondition (h : d.IsPlain) (name : Text) (b : Bool) :
    (d.setCondition name b).IsPlain :=
  ⟨h.pseudo, h.parameters, h.attributes, h.mappings⟩

theorem IsPlain.setParameter (h : d.IsPlain) (name : Text) {v : Value} (hfree : v.IsCallFree)
    (hdollar : v.isDollarFree = true) : (d.setParameter name v).IsPlain where
  pseudo := h.pseudo
  parameters {other u} hu := by
    by_cases hname : other = name
    · subst hname
      rw [Deployment.setParameter, Fields.get?_set_self] at hu
      exact Option.some.inj hu ▸ ⟨hfree, hdollar⟩
    · rw [Deployment.setParameter, Fields.get?_set_of_ne _ _ hname] at hu
      exact h.parameters hu
  attributes := h.attributes
  mappings := h.mappings

end Plain

end Deployment

namespace Intrinsic.Dispatch

variable {table : Dispatch} {d : Deployment}

theorem reduceEach_of_fixed {items : List Value}
    (h : ∀ v ∈ items, table.reduce d v = .ok (.value v)) :
    table.reduceEach d items = .ok (items.map .value) := by
  induction items with
  | nil => rw [reduceEach, List.map_nil]
  | cons v rest ih =>
    rw [reduceEach, h v List.mem_cons_self, ih fun u hu => h u (List.mem_cons_of_mem _ hu)]
    rfl

theorem reduceNamed_of_fixed {entries : List (Text × Value)}
    (h : ∀ entry ∈ entries, table.reduce d entry.2 = .ok (.value entry.2)) :
    table.reduceNamed d entries = .ok (entries.map fun entry => (entry.1, .value entry.2)) := by
  induction entries with
  | nil => rw [reduceNamed, List.map_nil]
  | cons entry rest ih =>
    rw [reduceNamed, h entry List.mem_cons_self,
      ih fun other hother => h other (List.mem_cons_of_mem _ hother)]
    rfl

/-- **A value without calls evaluates to itself.** -/
theorem reduce_of_isCallFree {v : Value} (h : v.IsCallFree) :
    table.reduce d v = .ok (.value v) := by
  induction v using Value.induction with
  | atom v hv => exact reduce_atom hv
  | list items ih =>
    rw [reduce_list, reduceEach_of_fixed fun v hv => ih v hv (h.of_mem_items hv)]
    exact congrArg (fun items => Except.ok (Outcome.value (.list items)))
      (Outcome.items_map_value items)
  | plain entries hcall ih =>
    rw [reduce_plain hcall,
      reduceNamed_of_fixed fun entry hentry => ih entry hentry (h.of_mem_entries hentry)]
    exact congrArg (fun entries => Except.ok (Outcome.value (.map entries)))
      (Outcome.entries_map_value entries)
  | call function argument hname => exact absurd h (Value.not_isCallFree_call hname)

/-- The entries that are left of a map have names that it had. -/
theorem not_isName_of_reduceNamed {entries : List (Text × Value)}
    {outcomes : List (Text × Outcome)} (h : ∀ entry ∈ entries, isName entry.1 = false)
    (hok : table.reduceNamed d entries = .ok outcomes) :
    ∀ entry ∈ Outcome.entries outcomes, isName entry.1 = false := by
  have hnames : ∀ named ∈ outcomes, isName named.1 = false :=
    forall_mem_of_reduceNamed (fun entry hentry _ _ => h entry hentry) hok
  exact fun entry hentry => hnames _ (Outcome.mem_entries.mp hentry)

end Intrinsic.Dispatch

end CloudTemplate
