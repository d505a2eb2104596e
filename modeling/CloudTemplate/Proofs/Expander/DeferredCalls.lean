import CloudTemplate.Proofs.Evaluation.AvoidedNames
import CloudTemplate.Proofs.Evaluation.MissingValues
import CloudTemplate.Proofs.Expander.RenamedReferences

/-!
# Calls that are left to the deployment

The calls of `Fn::ImportValue` and `Fn::GetAZs` are left to the deployment.  Wherever the walk comes
to one, it leaves the call as it stands, with all that is inside: nothing there is evaluated, and
nothing disappears.  So such a call in a result has come from the value.

Two kinds of values are exceptions.  A map with several entries is no call, but entries without a
value disappear from it, and so do local variables that a text does not need; a single entry that
is left can have the name of a function, and then it looks like a call.  And when the walk comes to
a call, it renames its argument, in which only maps may lead down to a call that is left to the
deployment.

## Main results

* `Expander.keepsDeferred`: where the calls of such a function in a result come from.
* `Expander.deferred_call_of_resolve`: they stand in the value as they are in the result, but for
  the exceptions.
-/

namespace CloudTemplate

open Intrinsic (isName isDeferred call?)

/-- No other name stands beside a name in a map. -/
def StandsAlone (name : Text) (entries : Fields Value) : Prop :=
  ∀ entry ∈ entries, entry.1 = name → entries.length = 1

instance (name : Text) : DecidablePred (StandsAlone name) := fun entries =>
  inferInstanceAs (Decidable (∀ entry ∈ entries, entry.1 = name → entries.length = 1))

/-- A function that stands alone in a map makes it a call, which is left to the deployment if such
calls are. -/
theorem StandsAlone.ne {function : Text} {entries : Fields Value}
    (h : StandsAlone function entries) (hfunction : isDeferred function = true)
    (hcall : (Value.map entries).isDeferredCall = false) :
    ∀ entry ∈ entries, entry.1 ≠ function := by
  rintro entry hentry rfl
  obtain ⟨other, rfl⟩ := List.length_eq_one_iff.mp (h entry hentry rfl)
  obtain rfl := List.mem_singleton.mp hentry
  rw [Value.isDeferredCall, hfunction] at hcall
  cases hcall

/-- All values that are known of a deployment have a property. -/
structure Deployment.KnowsOnly (d : Deployment) (P : Value → Prop) : Prop where
  parameters : ∀ {name v}, d.parameters.get? name = some v → P v
  attributes : ∀ {resource attr v}, d.attribute? resource attr = some v → P v
  mappings : ∀ {name topKey secondKey v}, Intrinsic.findEntry d name topKey secondKey = .ok v → P v

namespace Value

variable {function : Text} {calls others : Value → Prop} {v : Value}

/-- All calls of a function in a value are among some calls, and the function has no other name
beside it in any map. -/
structure HoldsOnly (function : Text) (calls : Value → Prop) (v : Value) : Prop where
  alone : v.Everywhere (StandsAlone function)
  mem : ∀ argument, .call function argument ∈ v.nodes → calls (.call function argument)

theorem HoldsOnly.mono (h : v.HoldsOnly function calls) (hcalls : ∀ u, calls u → others u) :
    v.HoldsOnly function others where
  alone := h.alone
  mem argument hmem := hcalls _ (h.mem argument hmem)

theorem holdsOnly_of_isCallFree (hfunction : isName function = true) (hfree : v.IsCallFree)
    (halone : v.Everywhere (StandsAlone function)) : v.HoldsOnly function calls where
  alone := halone
  mem argument hmem := by
    have hcall := hfree _ hmem
    rw [isCall_call hfunction] at hcall
    cases hcall

theorem holdsOnly_of_isAtom (hfunction : isName function = true) (h : v.isAtom = true) :
    v.HoldsOnly function calls :=
  holdsOnly_of_isCallFree hfunction (isCallFree_of_isAtom h) (everywhere_atom h)

theorem holdsOnly_list {items : List Value} :
    (list items).HoldsOnly function calls ↔ ∀ v ∈ items, v.HoldsOnly function calls := by
  constructor
  · intro h v hv
    exact ⟨everywhere_list.mp h.alone v hv, fun argument hmem =>
      h.mem argument (nodes_subset_list hv hmem)⟩
  · intro h
    refine ⟨everywhere_list.mpr fun v hv => (h v hv).alone, fun argument hmem => ?_⟩
    rcases mem_nodes_list.mp hmem with heq | ⟨v, hv, hmem⟩
    · cases heq
    · exact (h v hv).mem argument hmem

/-- A map without the name of the function is no call of it. -/
theorem holdsOnly_map {entries : List (Text × Value)}
    (hnames : ∀ entry ∈ entries, entry.1 ≠ function)
    (h : ∀ entry ∈ entries, entry.2.HoldsOnly function calls) :
    (map entries).HoldsOnly function calls where
  alone := everywhere_map_of (fun entry hentry heq => absurd heq (hnames entry hentry))
    fun entry hentry => (h entry hentry).alone
  mem argument hmem := by
    rcases mem_nodes_map.mp hmem with heq | ⟨entry, hentry, hmem⟩
    · obtain rfl := map.inj heq
      exact absurd rfl (hnames _ List.mem_cons_self)
    · exact (h entry hentry).mem argument hmem

theorem holdsOnly_call {other : Text} {argument : Value} (hne : other ≠ function)
    (h : argument.HoldsOnly function calls) : (call other argument).HoldsOnly function calls :=
  holdsOnly_map (List.forall_mem_singleton.mpr hne) (List.forall_mem_singleton.mpr h)

theorem HoldsOnly.of_map (hdeferred : isDeferred function = true) {entries : List (Text × Value)}
    (hcall : (map entries).isDeferredCall = false) (h : (map entries).HoldsOnly function calls) :
    (∀ entry ∈ entries, entry.1 ≠ function) ∧
      ∀ entry ∈ entries, entry.2.HoldsOnly function calls := by
  obtain ⟨halone, hvalues⟩ := (everywhere_map hcall).mp h.alone
  exact ⟨halone.ne hdeferred hcall, fun entry hentry => ⟨hvalues entry hentry, fun argument hmem =>
    h.mem argument (nodes_subset_map hentry hmem)⟩⟩

/-- Entries that are left out bring in no calls. -/
theorem HoldsOnly.filter (hdeferred : isDeferred function = true) {entries : List (Text × Value)}
    (h : (map entries).HoldsOnly function calls) (keep : Text × Value → Bool) :
    (map (entries.filter keep)).HoldsOnly function calls := by
  cases hcall : (map entries).isDeferredCall with
  | false =>
    obtain ⟨hnames, hvalues⟩ := h.of_map hdeferred hcall
    exact holdsOnly_map (fun entry hentry => hnames entry (List.mem_filter.mp hentry).1)
      fun entry hentry => hvalues entry (List.mem_filter.mp hentry).1
  | true =>
    match entries, hcall with
    | [entry], _ =>
      rw [List.filter_cons, List.filter_nil]
      split
      · exact h
      · exact holdsOnly_map (List.forall_mem_nil _) (List.forall_mem_nil _)

end Value

namespace Intrinsic

open Substitution (substitute substitute_cases)

variable {d : Deployment} {function : Text} {calls : Value → Prop}

theorem holdsOnly_substitute (hdeferred : isDeferred function = true)
    {locals : List (Text × Value)} (h : (Value.map locals).HoldsOnly function calls) (text : Text) :
    (substitute d locals text).HoldsOnly function calls := by
  have hname := isName_of_isDeferred hdeferred
  have hsub : sub ≠ function := ne_of_isDeferred rfl hdeferred
  have hstring (t : Text) : (Value.string t).HoldsOnly function calls :=
    Value.holdsOnly_of_isAtom hname rfl
  obtain ⟨-, heq⟩ | ⟨-, -, heq⟩ | ⟨-, -, heq⟩ := substitute_cases d locals text
  all_goals rw [heq]
  · exact hstring _
  · exact Value.holdsOnly_call hsub (hstring _)
  · refine Value.holdsOnly_call hsub (Value.holdsOnly_list.mpr ?_)
    rw [List.forall_mem_cons, List.forall_mem_singleton]
    exact ⟨hstring _, h.filter hdeferred _⟩

/-- A call of another function brings in no calls of a function whose calls are left to the
deployment. -/
theorem holdsOnly_of_invoked (hdeferred : isDeferred function = true) (hd : d.HoldsNoCalls)
    (hknown : d.KnowsOnly (Value.Everywhere (StandsAlone function))) {other : Text}
    (hother : isDeferred other = false) {argument : Value} {outcome : Outcome}
    (hargument : argument.HoldsOnly function calls) (h : Invoked d other argument outcome) :
    outcome.kept.HoldsOnly function calls := by
  have hname := isName_of_isDeferred hdeferred
  have hne : other ≠ function := ne_of_isDeferred hother hdeferred
  cases h with
  | kept => exact Value.holdsOnly_call hne hargument
  | noValue => exact Value.holdsOnly_call hne hargument
  | pseudo | condition => exact Value.holdsOnly_of_isAtom hname rfl
  | parameter _ _ h =>
    exact Value.holdsOnly_of_isCallFree hname (hd.parameters h) (hknown.parameters h)
  | attributeKnown _ h =>
    exact Value.holdsOnly_of_isCallFree hname (hd.attributes h) (hknown.attributes h)
  | attributeKept =>
    exact Value.holdsOnly_call hne (Value.holdsOnly_of_isCallFree hname
      (Value.isCallFree_ofStrings _) (Value.everywhere_ofStrings _))
  | mapping h => exact Value.holdsOnly_of_isCallFree hname (hd.mappings h) (hknown.mappings h)
  | branch h =>
    rw [Outcome.kept_ofBranch]
    exact Value.holdsOnly_list.mp hargument _ (by split <;> simp)
  | text t =>
    exact holdsOnly_substitute hdeferred
      (Value.holdsOnly_map (List.forall_mem_nil _) (List.forall_mem_nil _)) t
  | textWithLocals t locals =>
    exact holdsOnly_substitute hdeferred (Value.holdsOnly_list.mp hargument _ (by simp)) t

end Intrinsic

namespace Expander

variable {e : Expander} {l : Location} {function : Text} {n : Nat} {node : Value}

/-! ### Where a call comes from -/

/-- A node stems from a call in a value that is left to the deployment: it is part of the call, in
which the names are replaced by those calls around it that rename it, if `n` calls rename the
value. -/
def StemsFrom (e : Expander) (n : Nat) (v node : Value) : Prop :=
  ∃ (c : Enclosure) (u : Value), v = c.fill u ∧ u.isDeferredCall = true ∧
    node ∈ (e.renameIn^[c.renamings n] u).nodes

theorem StemsFrom.item {v : Value} (h : e.StemsFrom 0 v node) {items : List Value}
    (hv : v ∈ items) : e.StemsFrom n (.list items) node := by
  obtain ⟨c, u, rfl, hu, hnode⟩ := h
  obtain ⟨before, after, rfl⟩ := List.append_of_mem hv
  exact ⟨.item before c after, u, rfl, hu, hnode⟩

theorem StemsFrom.entry {entries : List (Text × Value)} (hcall : call? entries = none)
    {entry : Text × Value} (hentry : entry ∈ entries) (h : e.StemsFrom n entry.2 node) :
    e.StemsFrom n (.map entries) node := by
  obtain ⟨name, v⟩ := entry
  obtain ⟨c, u, rfl, hu, hnode⟩ := h
  obtain ⟨before, after, rfl⟩ := List.append_of_mem hentry
  exact ⟨.entry before name c after fun v => Intrinsic.call?_eq_none_of_names (by simp) hcall, u,
    rfl, hu, hnode⟩

theorem StemsFrom.argument {other : Text} (hname : isName other = true)
    (hother : isDeferred other = false) {argument : Value}
    (h : e.StemsFrom (n + 1) argument node) : e.StemsFrom n (.call other argument) node := by
  obtain ⟨c, u, rfl, hu, hnode⟩ := h
  exact ⟨.argument other c hname hother, u, rfl, hu, hnode⟩

/-- The calls of a function in what is left of a value stem from calls in the value, however often
it was renamed. -/
def KeepsDeferred (e : Expander) (function : Text) (v : Value) : Prop :=
  ∀ n l outcome, (e.evaluate l (e.renameIn^[n] v)).result = .ok outcome →
    outcome.kept.HoldsOnly function (e.StemsFrom n v)

/-- A call is left as it stands because of its function or because its argument is a string. -/
theorem isDeferred_or_string_of_isVerbatim {argument : Value}
    (h : e.isVerbatim function (e.renameIn argument) = true) :
    isDeferred function = true ∨ ∃ s, argument = .string s := by
  unfold isVerbatim at h
  rcases Bool.or_eq_true_iff.mp h with hdeferred | hplaceholder
  · exact .inl hdeferred
  · cases argument with
    | string s => exact .inr ⟨s, rfl⟩
    | null | bool | int | double => simp [renameIn] at hplaceholder
    | map entries => simp [renameIn] at hplaceholder
    | list items =>
      have hlist := e.renameIn_iterate_list 1 items
      rw [Function.iterate_one] at hlist
      rw [hlist] at hplaceholder
      cases hplaceholder

section

variable (hfunction : isDeferred function = true)
include hfunction

theorem keepsDeferred_atom {v : Value} (h : v.isAtom = true) : e.KeepsDeferred function v := by
  intro n l outcome hok
  have hatom : (e.renameIn^[n] v).isAtom = true :=
    renameIn_iterate_atom n h ▸ isAtom_renamed n h
  rw [evaluate_atom hatom] at hok
  obtain rfl := Except.ok.inj hok
  exact Value.holdsOnly_of_isAtom (Intrinsic.isName_of_isDeferred hfunction) hatom

theorem holdsOnly_of_evaluateEach {items : List Value}
    (h : ∀ v ∈ items, e.KeepsDeferred function v) {index : Nat} {outcomes : List Outcome}
    (hok : (e.evaluateEach l index (e.renameHead n items)).result = .ok outcomes) :
    ∀ outcome ∈ outcomes, outcome.kept.HoldsOnly function (e.StemsFrom n (.list items)) := by
  refine forall_mem_of_evaluateEach (forall_mem_renameHead (fun s l outcome hok => ?_) ?_) hok
  · rw [evaluate_atom rfl] at hok
    obtain rfl := Except.ok.inj hok
    exact Value.holdsOnly_of_isAtom (Intrinsic.isName_of_isDeferred hfunction) rfl
  · exact fun v hv l outcome hok => (h v hv 0 l outcome hok).mono fun _ hu => hu.item hv

theorem holdsOnly_of_evaluateArgument {argument : Value} (h : e.KeepsDeferred function argument)
    (hitems : ∀ items, argument = .list items → ∀ v ∈ items, e.KeepsDeferred function v)
    {other : Text} {evaluated : Value}
    (hok : (e.evaluateArgument l other (e.renameIn^[n] argument)).result = .ok evaluated) :
    evaluated.HoldsOnly function (e.StemsFrom n argument) := by
  by_cases hlist : ∃ items, argument = .list items
  · obtain ⟨items, rfl⟩ := hlist
    rw [renameIn_iterate_list, evaluateArgument_list, Recorded.result_map] at hok
    obtain ⟨outcomes, heach, rfl⟩ := map_eq_ok.mp hok
    have houtcomes := holdsOnly_of_evaluateEach hfunction (hitems items rfl) heach
    rw [Outcome.gathered, Value.holdsOnly_list]
    split
    · exact List.forall_mem_map.mpr houtcomes
    · exact fun v hv => houtcomes _ (Outcome.mem_items.mp hv)
  · have hne : ∀ items, argument ≠ .list items := fun items heq => hlist ⟨items, heq⟩
    rw [evaluateArgument_of_ne_list (renameIn_iterate_ne_list n hne), Recorded.result_map] at hok
    obtain ⟨outcome, houtcome, rfl⟩ := map_eq_ok.mp hok
    exact h n l outcome houtcome

/-- A call of another function is left as it stands with a string for its argument, or it gives
what the function makes of the evaluated argument. -/
theorem holdsOnly_of_evaluateCall (htable : e.dispatch.IsBuiltIn) (hd : e.deployment.HoldsNoCalls)
    (hknown : e.deployment.KnowsOnly (Value.Everywhere (StandsAlone function))) {other : Text}
    (hother : isName other = true) (hdeferred : isDeferred other = false) {argument : Value}
    (h : e.KeepsDeferred function argument)
    (hitems : ∀ items, argument = .list items → ∀ v ∈ items, e.KeepsDeferred function v)
    {outcome : Outcome}
    (hok : (e.evaluateCall l other (e.renameIn^[n] argument)).result = .ok outcome) :
    outcome.kept.HoldsOnly function (e.StemsFrom n (.call other argument)) := by
  have hname := Intrinsic.isName_of_isDeferred hfunction
  cases hverbatim : e.isVerbatim other (e.renameIn (e.renameIn^[n] argument)) with
  | true =>
    rw [evaluateCall_verbatim hverbatim] at hok
    obtain rfl := Except.ok.inj hok
    rcases isDeferred_or_string_of_isVerbatim hverbatim with hd | ⟨s, hs⟩
    · rw [hdeferred] at hd
      cases hd
    · rw [Outcome.kept, hs]
      exact Value.holdsOnly_call (Intrinsic.ne_of_isDeferred hdeferred hfunction)
        (Value.holdsOnly_of_isAtom hname rfl)
  | false =>
    rw [evaluateCall_eq hverbatim, ← Function.iterate_succ_apply' e.renameIn] at hok
    obtain ⟨_, -, hok⟩ := Recorded.result_bind_eq_ok.mp hok
    rw [Recorded.result_mapError, mapError_eq_ok] at hok
    obtain ⟨evaluated, hevaluated, hinvoke⟩ := Recorded.result_bind_eq_ok.mp hok
    have hholds := (holdsOnly_of_evaluateArgument hfunction h hitems hevaluated).mono
      fun _ hu => hu.argument hother hdeferred
    rcases htable.invoked hinvoke with hinvoked | ⟨delimiter, texts, -, rfl⟩
    · exact Intrinsic.holdsOnly_of_invoked hfunction hd hknown hdeferred hholds hinvoked
    · exact Value.holdsOnly_of_isAtom hname rfl

/-- **Calls that are left to the deployment stem from such calls.**  A walk brings in no others, as
long as the function has no other name beside it in any map. -/
theorem keepsDeferred (htable : e.dispatch.IsBuiltIn) (hd : e.deployment.HoldsNoCalls)
    (hknown : e.deployment.KnowsOnly (Value.Everywhere (StandsAlone function))) {v : Value}
    (hv : v.Everywhere (StandsAlone function)) : e.KeepsDeferred function v := by
  induction v using Value.induction with
  | atom v hatom => exact keepsDeferred_atom hfunction hatom
  | list items ih =>
    intro n l outcome hok
    rw [renameIn_iterate_list, evaluate_list, Recorded.result_map] at hok
    obtain ⟨outcomes, heach, rfl⟩ := map_eq_ok.mp hok
    have houtcomes := holdsOnly_of_evaluateEach hfunction
      (fun v hmem => ih v hmem (Value.everywhere_list.mp hv v hmem)) heach
    exact Value.holdsOnly_list.mpr fun v hv => houtcomes _ (Outcome.mem_items.mp hv)
  | plain entries hcall ih =>
    intro n l outcome hok
    have hplain := Value.isDeferredCall_of_plain hcall
    obtain ⟨halone, hvalues⟩ := (Value.everywhere_map hplain).mp hv
    -- So none of the entries that are left makes up a call of the function.
    have hnames := halone.ne hfunction hplain
    rw [renameIn_iterate_map,
      evaluate_plain (Intrinsic.call?_eq_none_of_names (by simp) hcall), Recorded.result_map] at hok
    obtain ⟨done, hdone, rfl⟩ := map_eq_ok.mp hok
    have hentries : ∀ entry ∈ done, entry.1 ≠ function ∧
        entry.2.HoldsOnly function (e.StemsFrom n (.map entries)) := by
      refine forall_mem_of_evaluateEntries (List.forall_mem_map.mpr fun entry hentry l w hw => ?_)
        hdone
      exact ⟨hnames entry hentry, (ih entry hentry (hvalues entry hentry) n l _ hw).mono
        fun _ hu => hu.entry hcall hentry⟩
    exact Value.holdsOnly_map (fun entry hentry => (hentries entry hentry).1)
      fun entry hentry => (hentries entry hentry).2
  | call other argument hother ih ihs =>
    intro n l outcome hok
    rw [renameIn_iterate_call, evaluate_call hother] at hok
    cases hdeferred : isDeferred other with
    | true =>
      have hverbatim : e.isVerbatim other (e.renameIn (e.renameIn^[n] argument)) = true :=
        Bool.or_eq_true_iff.mpr (.inl hdeferred)
      rw [evaluateCall_verbatim hverbatim, ← renameIn_iterate_call] at hok
      obtain rfl := Except.ok.inj hok
      refine ⟨?_, fun argument' hmem => ⟨.hole, _, rfl, hdeferred, hmem⟩⟩
      rw [Outcome.kept, renameIn_iterate_call]
      exact Value.everywhere_of_isDeferredCall hdeferred
    | false =>
      obtain ⟨-, hargument⟩ := (Value.everywhere_call hdeferred).mp hv
      refine holdsOnly_of_evaluateCall hfunction htable hd hknown hother hdeferred (ih hargument)
        ?_ hok
      rintro items rfl v hmem
      exact ihs items rfl v hmem (Value.everywhere_list.mp hargument v hmem)

end

/-- **Calls that are left to the deployment stay as they are.**  Take an expander with one of the
built-in tables, with any new names and placeholders, for which nothing that is known holds calls,
and a value.  Let `function` be one whose calls are left to the deployment, and let it have no other
name beside it in any map of the value or of what is known.

Then a call of the function in a result stands in the value as it is in the result.  Only a call
that stems from one of the value which maps alone separate from a call around it, and which has
names to be renamed inside it, is not covered: there the call around it has put new names in. -/
theorem deferred_call_of_resolve (htable : e.dispatch.IsBuiltIn) (hd : e.deployment.HoldsNoCalls)
    (hfunction : isDeferred function = true)
    (hknown : e.deployment.KnowsOnly (Value.Everywhere (StandsAlone function))) {v w : Value}
    (hv : v.Everywhere (StandsAlone function)) (hok : (e.resolve v l).1 = .ok (.value w))
    {argument : Value} (hmem : .call function argument ∈ w.nodes) :
    .call function argument ∈ v.nodes ∨
      ∃ (c : Enclosure) (u : Value), v = c.fill u ∧ u.isDeferredCall = true ∧
        c.renamings 0 ≠ 0 ∧ e.renameIn u ≠ u ∧
        .call function argument ∈ (e.renameIn^[c.renamings 0] u).nodes := by
  have hholds := keepsDeferred hfunction htable hd hknown hv 0 l _ hok
  obtain ⟨c, u, rfl, hu, hnode⟩ := hholds.mem argument hmem
  by_cases hfixed : c.renamings 0 = 0 ∨ e.renameIn u = u
  · refine .inl (c.mem_nodes_fill_of_mem ?_)
    rcases hfixed with hzero | hfixed
    · rwa [hzero] at hnode
    · rwa [renameIn_iterate_of_fixed hfixed] at hnode
  · obtain ⟨hzero, hfixed⟩ := not_or.mp hfixed
    exact .inr ⟨c, u, rfl, hu, hzero, hfixed, hnode⟩

/-- The items of a join are renamed and evaluated, but not what is left to the deployment. -/
theorem deferred_call_of_resolve_of_join :
    let e : Expander := { renames := [("A", "B")], placeholders := .ofList ["Later"] }
    let joined (items : List Value) : Value :=
      .call Intrinsic.join (.list [.string "-", .list items])
    let reference (name : Text) : Value := .call Intrinsic.ref (.string name)
    let imported : Value := .call Intrinsic.importValue (.string "A")
    let v := joined [imported, reference "A", reference "Later", .noValueRef]
    let w := joined [imported, reference "B", reference "Later"]
    (e.resolve v .root).1 = .ok (.value w) ∧ imported ∈ w.nodes ∧
      (imported ∈ v.nodes ∨
        ∃ (c : Enclosure) (u : Value), v = c.fill u ∧ u.isDeferredCall = true ∧
          c.renamings 0 ≠ 0 ∧ e.renameIn u ≠ u ∧
          imported ∈ (e.renameIn^[c.renamings 0] u).nodes) := by
  intro e joined reference imported v w
  have hd : e.deployment.HoldsNoCalls := Deployment.isPlain_default.holdsNoCalls
  have hknown : e.deployment.KnowsOnly (Value.Everywhere (StandsAlone Intrinsic.importValue)) :=
    { parameters := fun hv => by cases hv
      attributes := fun hv => by cases hv
      mappings := fun hv => by cases hv }
  have hok : (e.resolve v .root).1 = .ok (.value w) := by decide +kernel
  have hmem : imported ∈ w.nodes := by decide +kernel
  exact ⟨hok, hmem,
    deferred_call_of_resolve (.inl rfl) hd (by decide) hknown (by decide +kernel) hok hmem⟩

/-- A map is left with one of its entries, and so are the local variables of a text that are given
by a parameter: in both cases the entry has the name of a function and looks like a call.  And a
name is replaced inside a call that is the argument of another one. -/
theorem resolve_makes_deferred_calls :
    let imported (argument : Value) : Value := .call Intrinsic.importValue argument
    let mixed : Value := .map [("Fn::ImportValue", .string "x"), ("Y", .noValueRef)]
    let given : Value := .map [("Fn::ImportValue", .list []), ("Y", .string "y")]
    let text : Value := .string (Substitution.tokenText "Fn::ImportValue")
    let withLocals (locals : Value) : Value := .call Intrinsic.sub (.list [text, locals])
    let encoded (name : Text) : Value := .call Intrinsic.base64 (imported (.string name))
    let e : Expander := {}
    let informed : Expander := { deployment := e.deployment.setParameter "P" given }
    e.deployment.HoldsNoCalls ∧ given.IsCallFree ∧
      ((e.resolve mixed .root).1 = .ok (.value (imported (.string "x"))) ∧
        imported (.string "x") ∉ mixed.nodes) ∧
      ((informed.resolve (withLocals (.call Intrinsic.ref (.string "P"))) .root).1 =
          .ok (.value (withLocals (imported (.list [])))) ∧
        imported (.list []) ∉ (withLocals (.call Intrinsic.ref (.string "P"))).nodes) ∧
      (((e.rename "A" "B").resolve (encoded "A") .root).1 = .ok (.value (encoded "B")) ∧
        imported (.string "B") ∉ (encoded "A").nodes) := by
  intro imported mixed given text withLocals encoded e informed
  exact ⟨Deployment.isPlain_default.holdsNoCalls, by decide, by decide +kernel⟩

end Expander

end CloudTemplate
