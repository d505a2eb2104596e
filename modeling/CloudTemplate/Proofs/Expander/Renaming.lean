import Mathlib.Logic.Function.Iterate
import CloudTemplate.Proofs.Evaluation.Equations

/-!
# New names are put in place first

An expander with new names walks through a value like one without them through the value in which
the names are in place already (`Expander.evaluate_eq_evaluate_renamed`).

Before a call is evaluated the names in its argument are renamed: a string, the first item of a
list, and all of that in the values of a map, also where these are calls again.  So a name inside
several calls is renamed once by each of them, as far as maps alone lead from the call to the name.
`Expander.renamed` keeps count: it renames a value to which so many enclosing calls have an
unbroken way through maps, and a list breaks the way.
-/

namespace CloudTemplate.Expander

open Intrinsic (Error isName call? isDeferred)

variable {e : Expander} {l : Location}

/-- The expander without its new names. -/
def withoutRenames (e : Expander) : Expander :=
  { e with renames := [] }

/-- A list with its first item renamed `n` times if it is a string. -/
def renameHead (e : Expander) (n : Nat) : List Value → List Value
  | .string s :: rest => .string (e.newName^[n] s) :: rest
  | items => items

mutual

/-- A value with all names renamed that stand in arguments of calls, when `n` of the calls that
enclose the value rename it too. -/
def renamed (e : Expander) : Nat → Value → Value
  | n, .string s => .string (e.newName^[n] s)
  | n, .list items => .list (e.renameHead n (e.renamedItems items))
  | n, .map [(name, v)] =>
    if isDeferred name then .map [(name, e.renameIn^[n] v)]
    else .map [(name, e.renamed (if isName name then n + 1 else n) v)]
  | n, .map entries => .map (e.renamedEntries n entries)
  | _, v => v

/-- The items of a list with all names renamed. -/
def renamedItems (e : Expander) : List Value → List Value
  | [] => []
  | v :: rest => e.renamed 0 v :: e.renamedItems rest

/-- The entries of a map with all names renamed. -/
def renamedEntries (e : Expander) (n : Nat) : List (Text × Value) → List (Text × Value)
  | [] => []
  | (name, v) :: rest => (name, e.renamed n v) :: e.renamedEntries n rest

end

/-! ### One equation for each kind of node -/

theorem renamedItems_eq (items : List Value) : e.renamedItems items = items.map (e.renamed 0) := by
  induction items with
  | nil => rfl
  | cons v rest ih => exact congrArg (e.renamed 0 v :: ·) ih

theorem renamedEntries_eq (n : Nat) (entries : List (Text × Value)) :
    e.renamedEntries n entries = entries.map fun entry => (entry.1, e.renamed n entry.2) := by
  induction entries with
  | nil => rfl
  | cons entry rest ih => exact congrArg ((entry.1, e.renamed n entry.2) :: ·) ih

theorem renamed_string (n : Nat) (s : Text) :
    e.renamed n (.string s) = .string (e.newName^[n] s) := rfl

theorem renamed_list (n : Nat) (items : List Value) :
    e.renamed n (.list items) = .list (e.renameHead n (items.map (e.renamed 0))) := by
  rw [← renamedItems_eq]
  rfl

theorem renamed_singleton (n : Nat) (name : Text) (v : Value) :
    e.renamed n (.map [(name, v)]) =
      if isDeferred name then .map [(name, e.renameIn^[n] v)]
      else .map [(name, e.renamed (if isName name then n + 1 else n) v)] := rfl

/-- A map that is no call is renamed entry by entry. -/
theorem renamed_plain (n : Nat) {entries : List (Text × Value)} (h : call? entries = none) :
    e.renamed n (.map entries) =
      .map (entries.map fun entry => (entry.1, e.renamed n entry.2)) := by
  match entries, h with
  | [], _ => rfl
  | _ :: _ :: _, _ =>
    rw [← renamedEntries_eq]
    rfl
  | [(name, v)], h =>
    have hname := Intrinsic.not_isName_of_call?_eq_none h
    have hd : ¬ isDeferred name = true := fun hd =>
      Bool.false_ne_true (hname.symm.trans (Intrinsic.isName_of_isDeferred hd))
    rw [renamed_singleton, if_neg hd, hname, if_neg Bool.false_ne_true, List.map_singleton]

/-- The argument of a call is renamed once more. -/
theorem renamed_call (n : Nat) {function : Text} (argument : Value) (h : isName function = true)
    (hd : isDeferred function = false) :
    e.renamed n (.call function argument) = .call function (e.renamed (n + 1) argument) := by
  rw [Value.call, renamed_singleton, hd, if_neg Bool.false_ne_true, if_pos h, Value.call]

/-- A call that is left to the deployment is renamed by the calls that enclose it only. -/
theorem renamed_deferred (n : Nat) {function : Text} (argument : Value)
    (hd : isDeferred function = true) :
    e.renamed n (.call function argument) = .call function (e.renameIn^[n] argument) := by
  rw [Value.call, renamed_singleton, if_pos hd, Value.call]

/-! ### Several renamings at each kind of node -/

/-- If a new name is not renamed in its turn, renaming more often makes no difference. -/
theorem newName_iterate_of_fixed {name : Text} (h : e.newName (e.newName name) = e.newName name)
    (n : Nat) : e.newName^[n + 1] name = e.newName name := by
  rw [Function.iterate_succ_apply, Function.iterate_fixed h]

theorem renameIn_iterate_of_fixed {v : Value} (h : e.renameIn v = v) (n : Nat) :
    e.renameIn^[n] v = v :=
  Function.iterate_fixed h n

theorem renameIn_iterate_string (n : Nat) (s : Text) :
    e.renameIn^[n] (.string s) = .string (e.newName^[n] s) := by
  induction n with
  | zero => rfl
  | succ n ih => rw [Function.iterate_succ_apply', Function.iterate_succ_apply', ih, renameIn]

theorem renameIn_iterate_list (n : Nat) (items : List Value) :
    e.renameIn^[n] (.list items) = .list (e.renameHead n items) := by
  match items with
  | .string s :: rest =>
    induction n with
    | zero => rfl
    | succ n ih =>
      rw [Function.iterate_succ_apply', ih, renameHead, renameHead, renameIn,
        Function.iterate_succ_apply']
  | [] | .null :: _ | .bool _ :: _ | .int _ :: _ | .double _ :: _ | .list _ :: _ | .map _ :: _ =>
    rw [renameIn_iterate_of_fixed, renameHead] <;> simp [renameIn]

theorem renameInEntries_eq (entries : List (Text × Value)) :
    e.renameInEntries entries = entries.map fun entry => (entry.1, e.renameIn entry.2) := by
  induction entries with
  | nil => rw [renameInEntries, List.map_nil]
  | cons entry rest ih => rw [renameInEntries, ih, List.map_cons]

theorem renameIn_iterate_map (n : Nat) (entries : List (Text × Value)) :
    e.renameIn^[n] (.map entries) =
      .map (entries.map fun entry => (entry.1, e.renameIn^[n] entry.2)) := by
  induction n with
  | zero => simp
  | succ n ih =>
    rw [Function.iterate_succ_apply', ih, renameIn, renameInEntries_eq, List.map_map]
    simp only [Function.comp_def, Function.iterate_succ_apply']

theorem renameIn_iterate_atom (n : Nat) {v : Value} (h : v.isAtom = true) :
    e.renameIn^[n] v = e.renamed n v := by
  cases v with
  | string s => exact renameIn_iterate_string n s
  | null | bool | int | double => exact renameIn_iterate_of_fixed rfl n
  | list | map => cases h

/-- An atom stays an atom. -/
theorem isAtom_renamed (n : Nat) {v : Value} (h : v.isAtom = true) :
    (e.renamed n v).isAtom = true := by
  cases v with
  | null | bool | int | double | string => rfl
  | list | map => cases h

theorem renameIn_iterate_call (n : Nat) (function : Text) (argument : Value) :
    e.renameIn^[n] (.call function argument) = .call function (e.renameIn^[n] argument) := by
  rw [Value.call, renameIn_iterate_map, List.map_singleton, Value.call]

/-- Renaming makes no list of anything else. -/
theorem renameIn_iterate_ne_list (n : Nat) {v : Value} (h : ∀ items, v ≠ .list items)
    (items : List Value) : e.renameIn^[n] v ≠ .list items := by
  cases v with
  | list items => exact absurd rfl (h items)
  | map entries =>
    rw [renameIn_iterate_map]
    simp
  | null | bool | int | double | string =>
    rw [renameIn_iterate_atom n rfl]
    intro hlist
    cases hlist

/-- A map stays a map. -/
theorem exists_renamed_map (n : Nat) (entries : List (Text × Value)) :
    ∃ others, e.renamed n (.map entries) = .map others := by
  match entries with
  | [] | _ :: _ :: _ => exact ⟨_, rfl⟩
  | [(name, v)] =>
    rw [renamed_singleton]
    split <;> exact ⟨_, rfl⟩

theorem renamed_ne_list (n : Nat) {v : Value} (h : ∀ items, v ≠ .list items)
    (items : List Value) : e.renamed n v ≠ .list items := by
  cases v with
  | list items => exact absurd rfl (h items)
  | map entries =>
    obtain ⟨others, hothers⟩ := e.exists_renamed_map n entries
    rw [hothers]
    simp
  | null | bool | int | double | string =>
    intro hlist
    cases hlist

/-- The first item stays what it is, or it is a string in any case. -/
theorem forall_mem_renameHead {P : Value → Prop} (hstring : ∀ s, P (.string s)) {n : Nat}
    {items : List Value} (h : ∀ v ∈ items, P v) : ∀ v ∈ e.renameHead n items, P v := by
  unfold renameHead
  split
  · rw [List.forall_mem_cons] at h ⊢
    exact ⟨hstring _, h.2⟩
  · exact h

/-! ### The walk -/

/-- The items of a list with its first one renamed are renamed as the items of the list are. -/
theorem renameHead_map_renamed (n : Nat) (items : List Value) :
    e.renameHead n (items.map (e.renamed 0)) = (e.renameHead n items).map (e.renamed 0) := by
  match items with
  | [] => rfl
  | .string s :: rest => rfl
  | .list items :: rest => rfl
  | .map entries :: rest =>
    obtain ⟨others, hothers⟩ := e.exists_renamed_map 0 entries
    simp only [List.map_cons, hothers, renameHead]
  | .null :: _ | .bool _ :: _ | .int _ :: _ | .double _ :: _ => rfl

/-- The walk through a value in which the new names are put in place on the way is the walk without
new names through the value in which they are in place already. -/
def WalksRenamed (e : Expander) (v : Value) : Prop :=
  ∀ n l, e.evaluate l (e.renameIn^[n] v) = e.withoutRenames.evaluate l (e.renamed n v)

theorem walksRenamed_atom {v : Value} (h : v.isAtom = true) : e.WalksRenamed v := by
  intro n l
  rw [renameIn_iterate_atom n h]
  exact (evaluate_atom (isAtom_renamed n h)).trans (evaluate_atom (isAtom_renamed n h)).symm

theorem evaluateEach_renamed {items : List Value} (h : ∀ v ∈ items, e.WalksRenamed v)
    (index : Nat) :
    e.evaluateEach l index items =
      e.withoutRenames.evaluateEach l index (items.map (e.renamed 0)) := by
  induction items generalizing index with
  | nil => rw [evaluateEach, List.map_nil, evaluateEach]
  | cons v rest ih =>
    have hv := h v List.mem_cons_self 0 (l.item index)
    rw [Function.iterate_zero, id_eq] at hv
    rw [evaluateEach, List.map_cons, evaluateEach, hv,
      ih fun u hu => h u (List.mem_cons_of_mem _ hu)]

theorem evaluateEntries_renamed {entries : List (Text × Value)}
    (h : ∀ entry ∈ entries, e.WalksRenamed entry.2) (n : Nat) :
    e.evaluateEntries l (entries.map fun entry => (entry.1, e.renameIn^[n] entry.2)) =
      e.withoutRenames.evaluateEntries l
        (entries.map fun entry => (entry.1, e.renamed n entry.2)) := by
  induction entries with
  | nil => rw [List.map_nil, List.map_nil, evaluateEntries, evaluateEntries]
  | cons entry rest ih =>
    rw [List.map_cons, List.map_cons, evaluateEntries, evaluateEntries,
      h entry List.mem_cons_self n (l.entry entry.1),
      ih fun other hother => h other (List.mem_cons_of_mem _ hother)]

theorem evaluateArgument_renamed {argument : Value} (h : e.WalksRenamed argument)
    (hitems : ∀ items, argument = .list items → ∀ v ∈ items, e.WalksRenamed v) (n : Nat)
    (function : Text) :
    e.evaluateArgument l function (e.renameIn^[n] argument) =
      e.withoutRenames.evaluateArgument l function (e.renamed n argument) := by
  by_cases hlist : ∃ items, argument = .list items
  · obtain ⟨items, rfl⟩ := hlist
    rw [renameIn_iterate_list, renamed_list, evaluateArgument_list, evaluateArgument_list,
      renameHead_map_renamed,
      evaluateEach_renamed (forall_mem_renameHead (fun _ => walksRenamed_atom rfl)
        (hitems items rfl))]
  · have hne : ∀ items, argument ≠ .list items := fun items hargument =>
      hlist ⟨items, hargument⟩
    rw [evaluateArgument_of_ne_list (renameIn_iterate_ne_list n hne),
      evaluateArgument_of_ne_list (renamed_ne_list n hne), h]

/-- Whichever way the names were put in place, a call refers to the same name. -/
theorem referenced?_renamed (n : Nat) (function : Text) (argument : Value) :
    referenced? function (e.renamed n argument) =
      referenced? function (e.renameIn^[n] argument) := by
  match argument with
  | .list [] => rw [renamed_list, renameIn_iterate_list, List.map_nil]
  | .list (v :: rest) =>
    rw [renamed_list, renameIn_iterate_list, renameHead_map_renamed]
    cases v with
    | string s => rfl
    | map entries =>
      obtain ⟨others, hothers⟩ := e.exists_renamed_map 0 entries
      simp only [renameHead, List.map_cons, hothers, referenced?]
    | null | bool | int | double | list => rfl
  | .map entries =>
    obtain ⟨others, hothers⟩ := e.exists_renamed_map n entries
    rw [hothers, renameIn_iterate_map, referenced?, referenced?] <;> simp
  | .null | .bool _ | .int _ | .double _ | .string _ => rw [renameIn_iterate_atom n rfl]

theorem edge?_renamed (n : Nat) (function : Text) (argument : Value) :
    e.withoutRenames.edge? l function (e.renamed n argument) =
      e.edge? l function (e.renameIn^[n] argument) := by
  rw [edge?, edge?, referenced?_renamed]
  rfl

/-- **New names are put in place first.**  The walk of an expander without placeholders is the walk
without new names through the value in which the new names are in place. -/
theorem walksRenamed (hp : e.placeholders = .empty) (v : Value) : e.WalksRenamed v := by
  have hp' : e.withoutRenames.placeholders = .empty := hp
  induction v using Value.induction with
  | atom v hv => exact walksRenamed_atom hv
  | list items ih =>
    intro n l
    rw [renameIn_iterate_list, renamed_list, evaluate_list, evaluate_list, renameHead_map_renamed,
      evaluateEach_renamed (forall_mem_renameHead (fun _ => walksRenamed_atom rfl) ih)]
  | plain entries hcall ih =>
    intro n l
    rw [renameIn_iterate_map, renamed_plain n hcall,
      evaluate_plain (Intrinsic.call?_eq_none_of_names (by simp) hcall),
      evaluate_plain (Intrinsic.call?_eq_none_of_names (by simp) hcall), evaluateEntries_renamed ih]
  | call function argument hname ih ihs =>
    intro n l
    have hverbatim : ∀ v, e.isVerbatim function v = isDeferred function :=
      isVerbatim_of_placeholders_empty hp function
    have hverbatim' : ∀ v, e.withoutRenames.isVerbatim function v = isDeferred function :=
      isVerbatim_of_placeholders_empty hp' function
    rw [renameIn_iterate_call, evaluate_call hname]
    cases hd : isDeferred function with
    | true =>
      rw [evaluateCall_verbatim ((hverbatim _).trans hd), renamed_deferred n argument hd,
        evaluate_call hname, evaluateCall_verbatim ((hverbatim' _).trans hd)]
    | false =>
      have hsucc : e.renameIn (e.renameIn^[n] argument) = e.renameIn^[n + 1] argument :=
        (Function.iterate_succ_apply' _ _ _).symm
      rw [evaluateCall_eq ((hverbatim _).trans hd), renamed_call n argument hname hd,
        evaluate_call hname, evaluateCall_eq ((hverbatim' _).trans hd),
        renameIn_of_renames_nil (e := e.withoutRenames) rfl, hsucc, edge?_renamed,
        evaluateArgument_renamed ih ihs]
      rfl

/-- What an expander makes of a value is what it makes without new names of the value in which the
new names are in place. -/
theorem evaluate_eq_evaluate_renamed (hp : e.placeholders = .empty) (v : Value) :
    e.evaluate l v = e.withoutRenames.evaluate l (e.renamed 0 v) :=
  walksRenamed hp v 0 l

end CloudTemplate.Expander
