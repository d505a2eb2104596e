import CloudTemplate.Proofs.Evaluation.Reduction
import CloudTemplate.Proofs.Value.Positions

/-!
# The first call that fails

The calls in a value are evaluated one after the other, each after the calls in its argument.
`Expander.callsAt` lists them in this order.  The first one whose handler fails decides the result:
its error is that of the whole value, with the location of this call, however many calls there are
around it.

## Main results

* `Expander.callsAt_subset_or_isLeftAt`: no call is left out of the list, unless it is left as it
  stands.
* `Expander.forall_isIn_callsAt`: the calls that are listed stand where their steps lead.
* `Expander.callsDecide`: the first call that fails decides the result, whether there is one or not.
-/

namespace CloudTemplate

/-- A call in a document, and the steps that lead to it. -/
structure CallSite where
  steps : List Location.Step
  function : Text
  argument : Value
  deriving DecidableEq

namespace CallSite

/-- The call itself. -/
def call (site : CallSite) : Value := .call site.function site.argument

/-- Where the call stands. -/
def location (site : CallSite) : Location := Location.root.along site.steps

/-- The steps that lead to the argument of the call. -/
def argumentSteps (site : CallSite) : List Location.Step := site.steps ++ [.entry site.function]

/-- The call is a call of an intrinsic function that stands in a document where its steps lead. -/
structure IsIn (site : CallSite) (d : Value) : Prop where
  hasAt : d.HasAt site.steps site.call
  isName : Intrinsic.isName site.function = true

end CallSite

namespace Intrinsic.Error

/-- An error that has a location keeps it. -/
theorem locatedAt_of_location {err : Error} {l : Location} (h : err.location = some l)
    (other : Location) : err.locatedAt other = err := by
  rw [locatedAt, h]

/-- An error without a location gets that of a call that is not the whole document. -/
theorem location_locatedAt {err : Error} {l : Location} (h : err.location = none)
    (hroot : l.isRoot = false) : (err.locatedAt l).location = some l := by
  rw [locatedAt, h]
  dsimp only
  rw [if_neg (Bool.eq_false_iff.mp hroot)]

end Intrinsic.Error

namespace Expander

open Intrinsic (Error isName call?)

variable {e : Expander} {steps : List Location.Step}

/-! ### Calls in the order of their evaluation -/

mutual

/-- The calls that are evaluated in a value, each behind those in its argument.  Nothing is
evaluated inside a call that is left as it stands. -/
def callsAt (e : Expander) (steps : List Location.Step) : Value → List CallSite
  | .map entries =>
    match call? entries with
    | none => e.callsInEntries steps entries
    | some (function, argument) =>
      (if e.isVerbatim function argument then [] else e.callsInEntries steps entries) ++
        [⟨steps, function, argument⟩]
  | .list items => e.callsInItems steps 0 items
  | _ => []

/-- The calls in the items of a list, the first of which has the given index. -/
def callsInItems (e : Expander) (steps : List Location.Step) (index : Nat) :
    List Value → List CallSite
  | [] => []
  | v :: rest =>
    e.callsAt (steps ++ [.item index]) v ++ e.callsInItems steps (index + 1) rest

/-- The calls in the entries of a map. -/
def callsInEntries (e : Expander) (steps : List Location.Step) :
    List (Text × Value) → List CallSite
  | [] => []
  | (name, v) :: rest =>
    e.callsAt (steps ++ [.entry name]) v ++ e.callsInEntries steps rest

end

/-- The calls in the argument of a call. -/
def callsInArgument (e : Expander) (site : CallSite) : List CallSite :=
  e.callsAt site.argumentSteps site.argument

theorem callsAt_atom {v : Value} (h : v.isAtom = true) : e.callsAt steps v = [] := by
  cases v with
  | null | bool | int | double | string => rw [callsAt] <;> simp
  | list | map => cases h

theorem callsAt_plain {entries : List (Text × Value)} (h : call? entries = none) :
    e.callsAt steps (.map entries) = e.callsInEntries steps entries := by
  rw [callsAt, h]

theorem callsAt_call {function : Text} {argument : Value} (h : isName function = true) :
    e.callsAt steps (.call function argument) =
      (if e.isVerbatim function argument then []
        else e.callsInArgument ⟨steps, function, argument⟩) ++ [⟨steps, function, argument⟩] := by
  rw [Value.call, callsAt, Intrinsic.call?_call argument h]
  simp only [callsInEntries, List.append_nil]
  rfl

/-! ### Where the calls stand -/

section Places

variable {d : Value}

theorem forall_isIn_callsInItems {items : List Value}
    (h : ∀ v ∈ items, ∀ steps, d.HasAt steps v → ∀ site ∈ e.callsAt steps v, site.IsIn d)
    {index : Nat} (hat : ∀ k v, items[k]? = some v → d.HasAt (steps ++ [.item (index + k)]) v) :
    ∀ site ∈ e.callsInItems steps index items, site.IsIn d := by
  induction items generalizing index with
  | nil => exact List.forall_mem_nil _
  | cons v rest ih =>
    obtain ⟨hv, hrest⟩ := List.forall_mem_cons.mp h
    have hnext : ∀ k v, rest[k]? = some v → d.HasAt (steps ++ [.item (index + 1 + k)]) v := by
      intro k v hk
      have := hat (k + 1) v hk
      rwa [Nat.add_comm k 1, ← Nat.add_assoc] at this
    rw [callsInItems, List.forall_mem_append]
    exact ⟨hv _ (hat 0 v rfl), ih hrest hnext⟩

theorem forall_isIn_callsInEntries {entries : Fields Value}
    (h : ∀ entry ∈ entries, ∀ steps, d.HasAt steps entry.2 →
      ∀ site ∈ e.callsAt steps entry.2, site.IsIn d)
    (hat : ∀ entry ∈ entries, d.HasAt (steps ++ [.entry entry.1]) entry.2) :
    ∀ site ∈ e.callsInEntries steps entries, site.IsIn d := by
  induction entries with
  | nil => exact List.forall_mem_nil _
  | cons entry rest ih =>
    obtain ⟨hentry, hrest⟩ := List.forall_mem_cons.mp h
    obtain ⟨hfirst, hothers⟩ := List.forall_mem_cons.mp hat
    rw [callsInEntries, List.forall_mem_append]
    exact ⟨hentry _ hfirst, ih hrest hothers⟩

/-- The calls that are listed stand in the document, each where its steps lead. -/
theorem forall_isIn_callsAt {v : Value} (hat : d.HasAt steps v) :
    ∀ site ∈ e.callsAt steps v, site.IsIn d := by
  induction v using Value.induction generalizing steps with
  | atom v hv =>
    rw [callsAt_atom hv]
    exact List.forall_mem_nil _
  | list items ih =>
    rw [callsAt]
    refine forall_isIn_callsInItems (fun v hv steps hat => ih v hv hat) fun k v hk => ?_
    rw [Nat.zero_add]
    exact hat.item hk
  | plain entries hcall ih =>
    rw [callsAt_plain hcall]
    exact forall_isIn_callsInEntries (fun entry hentry steps hat => ih entry hentry hat)
      fun entry hentry => hat.entry hentry
  | call function argument hname ih _ =>
    rw [callsAt_call hname, List.forall_mem_append, List.forall_mem_singleton]
    refine ⟨?_, ⟨hat, hname⟩⟩
    split
    · exact List.forall_mem_nil _
    · exact ih (hat.entry List.mem_cons_self)

end Places

theorem callsAt_subset_callsInItems {items : List Value} {k : Nat} {v : Value}
    (h : items[k]? = some v) (index : Nat) :
    e.callsAt (steps ++ [.item (index + k)]) v ⊆ e.callsInItems steps index items := by
  induction items generalizing k index with
  | nil => cases h
  | cons first rest ih =>
    rw [callsInItems]
    cases k with
    | zero =>
      obtain rfl := Option.some.inj h
      exact List.subset_append_left _ _
    | succ k =>
      have hrest := ih h (index + 1)
      rw [Nat.add_assoc, Nat.add_comm 1] at hrest
      exact List.subset_append_of_subset_right _ hrest

theorem callsAt_subset_callsInEntries {entries : Fields Value} {name : Text} {v : Value}
    (h : (name, v) ∈ entries) :
    e.callsAt (steps ++ [.entry name]) v ⊆ e.callsInEntries steps entries := by
  induction entries with
  | nil => cases h
  | cons entry rest ih =>
    rw [callsInEntries]
    rcases List.mem_cons.mp h with rfl | h
    · exact List.subset_append_left _ _
    · exact List.subset_append_of_subset_right _ (ih h)

/-- The node to which steps lead is left as it stands: a call that is left stands there or above. -/
def IsLeftAt (e : Expander) (v : Value) (steps : List Location.Step) : Prop :=
  ∃ before function argument, before <+: steps ∧ v.HasAt before (.call function argument) ∧
    isName function = true ∧ e.isVerbatim function argument = true

theorem IsLeftAt.append {v : Value} {before : List Location.Step} (h : e.IsLeftAt v before)
    (more : List Location.Step) : e.IsLeftAt v (before ++ more) := by
  obtain ⟨outer, function, argument, hprefix, hcall⟩ := h
  exact ⟨outer, function, argument, hprefix.trans (List.prefix_append _ _), hcall⟩

/-- **No call is left out** unless it is left as it stands: all calls of the node to which steps
lead are listed, or the node itself is left. -/
theorem callsAt_subset_or_isLeftAt {v u : Value} {inside : List Location.Step}
    (hat : v.HasAt inside u) :
    e.callsAt (steps ++ inside) u ⊆ e.callsAt steps v ∨ e.IsLeftAt v inside := by
  induction hat with
  | root =>
    rw [List.append_nil]
    exact .inl (List.Subset.refl _)
  | @entry inside entries name u hat hentry ih =>
    rw [← List.append_assoc]
    obtain hsubset | hleft := ih
    · cases hcall : call? entries with
      | none =>
        rw [callsAt_plain hcall] at hsubset
        exact .inl (List.Subset.trans (callsAt_subset_callsInEntries hentry) hsubset)
      | some pair =>
        obtain ⟨function, argument⟩ := pair
        obtain ⟨rfl, hname⟩ := Intrinsic.call?_eq_some_iff.mp hcall
        obtain ⟨rfl, rfl⟩ := Prod.mk.inj (List.mem_singleton.mp hentry)
        cases hverbatim : e.isVerbatim name u with
        | true => exact .inr ⟨inside, name, u, List.prefix_append _ _, hat, hname, hverbatim⟩
        | false =>
          have hcalls : e.callsAt (steps ++ inside) (.call name u) = _ := callsAt_call hname
          rw [Value.call, hverbatim, if_neg Bool.false_ne_true] at hcalls
          rw [hcalls] at hsubset
          exact .inl (List.Subset.trans (List.subset_append_left _ _) hsubset)
    · exact .inr (hleft.append _)
  | @item inside items index u _ hitem ih =>
    rw [← List.append_assoc]
    obtain hsubset | hleft := ih
    · have hfirst : e.callsAt (steps ++ inside ++ [.item (0 + index)]) u ⊆
          e.callsInItems (steps ++ inside) 0 items := callsAt_subset_callsInItems hitem 0
      rw [Nat.zero_add] at hfirst
      rw [callsAt] at hsubset
      exact .inl (List.Subset.trans hfirst hsubset)
    · exact .inr (hleft.append _)

/-- A call inside a value is listed, or it is left as it stands. -/
theorem mem_callsAt_or_isLeftAt {v : Value} {inside : List Location.Step} {function : Text}
    {argument : Value} (hat : v.HasAt inside (.call function argument))
    (hname : isName function = true) :
    ⟨steps ++ inside, function, argument⟩ ∈ e.callsAt steps v ∨ e.IsLeftAt v inside := by
  refine (callsAt_subset_or_isLeftAt hat).imp_left fun hsubset => hsubset ?_
  rw [callsAt_call hname]
  exact List.mem_append_right _ List.mem_cons_self

/-! ### What the calls decide -/

/-- The call is evaluated without an error, or left as it stands. -/
def Succeeds (e : Expander) (site : CallSite) : Prop :=
  ∃ outcome, (e.evaluate site.location site.call).result = .ok outcome

/-- The call itself fails with an error: the calls in its argument succeed or are left as they
stand, and its handler fails on what the argument evaluates to.  The error is located at the
call. -/
structure FailsWith (e : Expander) (site : CallSite) (err : Error) : Prop where
  location : err.location = some site.location
  inner : ∀ inside function argument,
    site.argument.HasAt inside (.call function argument) → isName function = true →
      e.Succeeds ⟨site.argumentSteps ++ inside, function, argument⟩ ∨
        e.IsLeftAt site.argument inside
  handler : ∃ argument,
    (e.evaluateArgument (site.location.entry site.function) site.function site.argument).result =
      .ok argument ∧
    e.dispatch.invoke e.deployment site.function argument = .error err.unlocated
  result : (e.evaluate site.location site.call).result = .error err

/-- The first call that fails decides a result: if there is none, the result is no error, and
otherwise it is the error of this call. -/
inductive IsDecidedBy (e : Expander) (sites : List CallSite) {α : Type} : Except Error α → Prop
  | ok (hsites : ∀ site ∈ sites, e.Succeeds site) (a : α) : IsDecidedBy e sites (.ok a)
  | error {earlier later : List CallSite} {site : CallSite} {err : Error}
      (hsites : sites = earlier ++ site :: later) (hearlier : ∀ other ∈ earlier, e.Succeeds other)
      (hsite : e.FailsWith site err) : IsDecidedBy e sites (.error err)

namespace IsDecidedBy

variable {α β : Type} {sites others : List CallSite}

theorem pure (a : α) : e.IsDecidedBy [] (.ok a) :=
  .ok (List.forall_mem_nil _) a

/-- The calls in a second computation are evaluated if no call in the first one fails. -/
theorem bind {x : Recorded Edge Error α} {f : α → Recorded Edge Error β}
    (hx : e.IsDecidedBy sites x.result)
    (hf : ∀ a, x.result = .ok a → e.IsDecidedBy others (f a).result) :
    e.IsDecidedBy (sites ++ others) (x >>= f).result := by
  rw [Recorded.result_bind]
  cases hresult : x.result with
  | ok a =>
    rw [hresult] at hx
    obtain ⟨hsites⟩ := hx
    have hrest := hf a hresult
    change e.IsDecidedBy (sites ++ others) (f a).result
    cases hother : (f a).result with
    | ok b =>
      rw [hother] at hrest
      obtain ⟨hothers⟩ := hrest
      exact .ok (List.forall_mem_append.mpr ⟨hsites, hothers⟩) b
    | error err =>
      rw [hother] at hrest
      obtain ⟨-⟩ | ⟨rfl, hearlier, hsite⟩ := hrest
      exact .error (List.append_assoc ..).symm (List.forall_mem_append.mpr ⟨hsites, hearlier⟩) hsite
  | error err =>
    rw [hresult] at hx
    obtain ⟨-⟩ | ⟨rfl, hearlier, hsite⟩ := hx
    exact .error (by rw [List.append_assoc, List.cons_append]) hearlier hsite

theorem bind_pure {x : Recorded Edge Error α} (hx : e.IsDecidedBy sites x.result) (f : α → β) :
    e.IsDecidedBy sites (x >>= fun a => Pure.pure (f a)).result := by
  rw [← List.append_nil sites]
  exact hx.bind fun a _ => .pure (f a)

theorem map {x : Recorded Edge Error α} (hx : e.IsDecidedBy sites x.result) (f : α → β) :
    e.IsDecidedBy sites (f <$> x).result := by
  rw [map_eq_pure_bind]
  exact hx.bind_pure f

end IsDecidedBy

/-- The calls in a value decide the result of its evaluation, wherever below the root of a document
it stands. -/
def CallsDecide (e : Expander) (v : Value) : Prop :=
  ∀ steps, (Location.root.along steps).isRoot = false →
    e.IsDecidedBy (e.callsAt steps v) (e.evaluate (Location.root.along steps) v).result

theorem isDecidedBy_evaluateEach {items : List Value} (h : ∀ v ∈ items, e.CallsDecide v)
    (hroot : (Location.root.along steps).isRoot = false) (index : Nat) :
    e.IsDecidedBy (e.callsInItems steps index items)
      (e.evaluateEach (Location.root.along steps) index items).result := by
  induction items generalizing index with
  | nil => exact .pure _
  | cons v rest ih =>
    obtain ⟨hv, hrest⟩ := List.forall_mem_cons.mp h
    rw [callsInItems, evaluateEach, Location.item_along]
    exact (hv _ (Location.isRoot_along_concat hroot _)).bind fun outcome _ =>
      (ih hrest (index + 1)).map (outcome :: ·)

theorem isDecidedBy_evaluateEntries {entries : Fields Value}
    (h : ∀ entry ∈ entries, e.CallsDecide entry.2)
    (hroot : (Location.root.along steps).isRoot = false) :
    e.IsDecidedBy (e.callsInEntries steps entries)
      (e.evaluateEntries (Location.root.along steps) entries).result := by
  induction entries with
  | nil =>
    rw [evaluateEntries]
    exact .pure _
  | cons entry rest ih =>
    obtain ⟨hentry, hrest⟩ := List.forall_mem_cons.mp h
    rw [callsInEntries, evaluateEntries, Location.entry_along]
    exact (hentry _ (Location.isRoot_along_concat hroot _)).bind fun outcome _ =>
      (ih hrest).map (outcome.entry entry.1 ++ ·)

theorem isDecidedBy_evaluateArgument (site : CallSite) (h : e.CallsDecide site.argument)
    (hitems : ∀ items, site.argument = .list items → ∀ v ∈ items, e.CallsDecide v)
    (hroot : site.location.isRoot = false) :
    e.IsDecidedBy (e.callsInArgument site)
      (e.evaluateArgument (site.location.entry site.function) site.function
        site.argument).result := by
  obtain ⟨steps, function, argument⟩ := site
  have hargument : (Location.root.along (steps ++ [.entry function])).isRoot = false :=
    Location.isRoot_along_concat hroot _
  rw [callsInArgument, CallSite.location, Location.entry_along]
  by_cases hlist : ∃ items, argument = .list items
  · obtain ⟨items, rfl⟩ := hlist
    rw [evaluateArgument_list, callsAt]
    exact (isDecidedBy_evaluateEach (hitems items rfl) hargument 0).map _
  · rw [evaluateArgument_of_ne_list fun items hv => hlist ⟨items, hv⟩]
    exact (h _ hargument).map _

/-- A call that is evaluated gives what its handler gives for its argument; an error is located. -/
theorem result_evaluate_call {site : CallSite} (hr : e.renames = [])
    (hname : isName site.function = true)
    (hverbatim : e.isVerbatim site.function site.argument = false) :
    (e.evaluate site.location site.call).result =
      ((e.evaluateArgument (site.location.entry site.function) site.function
        site.argument).result >>= e.dispatch.invoke e.deployment site.function).mapError
          (Error.locatedAt site.location) := by
  rw [CallSite.call, evaluate_call hname, result_evaluateCall hr hverbatim]

/-- A call that is evaluated: the calls in its argument come first, and then its handler. -/
theorem isDecidedBy_evaluateCall {site : CallSite} (hr : e.renames = [])
    (hname : isName site.function = true) (hroot : site.location.isRoot = false)
    (hverbatim : e.isVerbatim site.function site.argument = false)
    (hargument : e.IsDecidedBy (e.callsInArgument site)
      (e.evaluateArgument (site.location.entry site.function) site.function site.argument).result) :
    e.IsDecidedBy (e.callsInArgument site ++ [site])
      (e.evaluate site.location site.call).result := by
  have hresult := result_evaluate_call hr hname hverbatim
  cases hevaluated : (e.evaluateArgument (site.location.entry site.function) site.function
      site.argument).result with
  | error err =>
    -- A call in the argument has failed; its error is located and stays as it is.
    rw [hevaluated] at hargument hresult
    obtain ⟨-⟩ | ⟨hsites, hearlier, hsite⟩ := hargument
    have hkept : err.locatedAt site.location = err :=
      Error.locatedAt_of_location hsite.location _
    have herror : (e.evaluate site.location site.call).result = .error err :=
      hresult.trans (congrArg Except.error hkept)
    rw [herror]
    exact .error (by rw [hsites, List.append_assoc, List.cons_append]) hearlier hsite
  | ok argument =>
    rw [hevaluated] at hargument hresult
    obtain ⟨hinner⟩ := hargument
    cases hinvoked : e.dispatch.invoke e.deployment site.function argument with
    | ok outcome =>
      have hok : (e.evaluate site.location site.call).result = .ok outcome :=
        hresult.trans (congrArg (Except.mapError _) hinvoked)
      rw [hok]
      have hlast : ∀ other ∈ [site], e.Succeeds other :=
        List.forall_mem_singleton.mpr ⟨outcome, hok⟩
      exact .ok (List.forall_mem_append.mpr ⟨hinner, hlast⟩) outcome
    | error fault =>
      have hunlocated : fault.unlocated = fault := by
        have := e.dispatch.mapError_unlocated_invoke (d := e.deployment) site.function argument
        rw [hinvoked] at this
        exact Except.error.inj this
      have herror : (e.evaluate site.location site.call).result =
          .error (fault.locatedAt site.location) :=
        hresult.trans (congrArg (Except.mapError _) hinvoked)
      have hnone : fault.location = none := congrArg Error.location hunlocated.symm
      have hsite : e.FailsWith site (fault.locatedAt site.location) := {
        location := Error.location_locatedAt hnone hroot
        inner := fun inside _ _ hat hname =>
          (mem_callsAt_or_isLeftAt hat hname).imp_left (hinner _)
        handler := ⟨argument, hevaluated, by rw [Error.unlocated_locatedAt, hunlocated, hinvoked]⟩
        result := herror }
      rw [herror]
      exact .error rfl hinner hsite

/-- **The first call that fails decides the result**, in every value that stands below the root of a
document. -/
theorem callsDecide (hr : e.renames = []) (v : Value) : e.CallsDecide v := by
  induction v using Value.induction with
  | atom v hv =>
    intro steps _
    rw [callsAt_atom hv, evaluate_atom hv]
    exact .pure _
  | list items ih =>
    intro steps hroot
    rw [callsAt, evaluate_list]
    exact (isDecidedBy_evaluateEach ih hroot 0).map _
  | plain entries hcall ih =>
    intro steps hroot
    rw [callsAt_plain hcall, evaluate_plain hcall]
    exact (isDecidedBy_evaluateEntries ih hroot).map _
  | call function argument hname ih ihs =>
    intro steps hroot
    let site : CallSite := ⟨steps, function, argument⟩
    rw [callsAt_call hname]
    cases hverbatim : e.isVerbatim function argument with
    | true =>
      have hok : (e.evaluate site.location site.call).result = .ok (.value site.call) := by
        rw [CallSite.call, evaluate_call hname,
          evaluateCall_verbatim (by rw [renameIn_of_renames_nil hr, hverbatim])]
        rfl
      have hsites : ∀ other ∈ [site], e.Succeeds other :=
        List.forall_mem_singleton.mpr ⟨_, hok⟩
      exact hok ▸ .ok hsites _
    | false =>
      exact isDecidedBy_evaluateCall hr hname hroot hverbatim
        (isDecidedBy_evaluateArgument site ih ihs hroot)

end Expander

end CloudTemplate
