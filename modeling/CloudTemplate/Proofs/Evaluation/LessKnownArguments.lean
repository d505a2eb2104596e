import CloudTemplate.Proofs.Evaluation.LessKnownCalls

/-!
# Arguments when less is known

What succeeds when more is known succeeds when less is known (`Dispatch.succeedsBelow`), unless some
call `Hinges` on a part of its argument that is known later only.  A function may want to know its
whole argument, single parts of it, the first part, or just how many parts there are.
-/

namespace CloudTemplate

open Substitution (LocalsGrow)

namespace Intrinsic

open Outcome (Below)

variable {d d' : Deployment} {outcome later : Outcome}

namespace Dispatch

/-! ### Where it matters what is known -/

/-- A value gives the same when less is known, if it gives something when more is known. -/
def Alike (d d' : Deployment) (v : Value) : Prop :=
  ∀ later, standard.reduce d' v = .ok later → standard.reduce d v = .ok later

/-- A call hinges on something that is known later only: on its whole argument, if this is no list;
on a part that names an attribute or gives a text or its local variables; on its first part; or on
how many parts there are. -/
inductive HingesHere (d d' : Deployment) (function : Text) : Value → Prop
  | argument {argument : Value} (hf : function ∈ demanding)
      (hlist : ∀ items, argument ≠ .list items) (h : ¬ Alike d d' argument) :
      HingesHere d d' function argument
  | part {items : List Value} {v : Value} (hf : function ∈ [getAtt, sub]) (hv : v ∈ items)
      (hcall : v.isCall = true) (h : ¬ Alike d d' v) : HingesHere d d' function (.list items)
  | first {before after : List Value} {v : Value} (hf : function ∈ [join, ifElse, split])
      (hbefore : ∀ u ∈ before, standard.reduce d' u = .ok .noValue) (h : ¬ Alike d d' v) :
      HingesHere d d' function (.list (before ++ v :: after))
  | count {items : List Value} {v : Value} (hf : function ∈ [findInMap, join, select, split])
      (hv : v ∈ items) (hmissing : standard.reduce d' v = .ok .noValue) (h : ¬ Alike d d' v) :
      HingesHere d d' function (.list items)

/-- Somewhere in a value, but not inside a call that is left to the deployment, a call hinges on
something that is known later only. -/
inductive Hinges (d d' : Deployment) : Value → Prop
  | here {function : Text} {argument : Value} (hname : isName function = true)
      (hd : isDeferred function = false) (h : HingesHere d d' function argument) :
      Hinges d d' (.call function argument)
  | item {items : List Value} {v : Value} (hv : v ∈ items) (h : Hinges d d' v) :
      Hinges d d' (.list items)
  | entry {entries : List (Text × Value)} {entry : Text × Value} (hentry : entry ∈ entries)
      (hd : (Value.map entries).isDeferredCall = false) (h : Hinges d d' entry.2) :
      Hinges d d' (.map entries)

/-- If a value gives something when more is known, it gives something now. -/
def SucceedsBelow (d d' : Deployment) (v : Value) : Prop :=
  ∀ later, standard.reduce d' v = .ok later →
    ∃ outcome, standard.reduce d v = .ok outcome ∧ outcome.Below later

/-! ### Arguments -/

/-- Items give one by one what stands in a relation to what they give later. -/
theorem exists_reduceEach {R : Outcome → Outcome → Prop} {items : List Value}
    {laters : List Outcome}
    (h : ∀ v ∈ items, ∀ later ∈ laters, standard.reduce d' v = .ok later →
      ∃ outcome, standard.reduce d v = .ok outcome ∧ R outcome later)
    (hok : standard.reduceEach d' items = .ok laters) :
    ∃ outcomes, standard.reduceEach d items = .ok outcomes ∧ List.Forall₂ R outcomes laters := by
  induction items generalizing laters with
  | nil =>
    rw [reduceEach_nil] at hok
    obtain rfl := Except.ok.inj hok
    exact ⟨[], reduceEach_nil, .nil⟩
  | cons v rest ih =>
    obtain ⟨later, others, hv, hrest, rfl⟩ := reduceEach_cons_eq_ok.mp hok
    obtain ⟨outcome, houtcome, hbelow⟩ := h v List.mem_cons_self later List.mem_cons_self hv
    obtain ⟨outcomes, houtcomes, hall⟩ := ih (fun u hu other hother =>
      h u (List.mem_cons_of_mem _ hu) other (List.mem_cons_of_mem _ hother)) hrest
    exact ⟨outcome :: outcomes,
      reduceEach_cons_eq_ok.mpr ⟨outcome, outcomes, houtcome, houtcomes, rfl⟩, .cons hbelow hall⟩

theorem exists_reduceNamed {entries : List (Text × Value)} {laters : List (Text × Outcome)}
    (h : ∀ entry ∈ entries, SucceedsBelow d d' entry.2)
    (hok : standard.reduceNamed d' entries = .ok laters) :
    ∃ outcomes, standard.reduceNamed d entries = .ok outcomes ∧
      Outcome.NamedBelow outcomes laters := by
  induction entries generalizing laters with
  | nil =>
    rw [reduceNamed_nil] at hok
    obtain rfl := Except.ok.inj hok
    exact ⟨[], reduceNamed_nil, .nil⟩
  | cons entry rest ih =>
    obtain ⟨later, others, hv, hrest, rfl⟩ := reduceNamed_cons_eq_ok.mp hok
    obtain ⟨outcome, houtcome, hbelow⟩ := h entry List.mem_cons_self later hv
    obtain ⟨outcomes, houtcomes, hall⟩ :=
      ih (fun other hother => h other (List.mem_cons_of_mem _ hother)) hrest
    exact ⟨(entry.1, outcome) :: outcomes,
      reduceNamed_cons_eq_ok.mpr ⟨outcome, outcomes, houtcome, houtcomes, rfl⟩,
      .cons ⟨rfl, hbelow⟩ hall⟩

/-- If all parts up to the first one that gives a value are alike, so is the first part. -/
theorem head?_of_reduceEach {items : List Value} {outcomes laters : List Outcome}
    (h : ∀ before v after, items = before ++ v :: after →
      (∀ u ∈ before, standard.reduce d' u = .ok .noValue) → Alike d d' v)
    (hok : standard.reduceEach d items = .ok outcomes)
    (hlater : standard.reduceEach d' items = .ok laters) :
    (outcomes.flatMap Outcome.item).head? = (laters.flatMap Outcome.item).head? := by
  induction items generalizing outcomes laters with
  | nil =>
    rw [reduceEach_nil] at hok hlater
    rw [← Except.ok.inj hok, ← Except.ok.inj hlater]
  | cons v rest ih =>
    obtain ⟨outcome, others, hv, hrest, rfl⟩ := reduceEach_cons_eq_ok.mp hok
    obtain ⟨later, laters, hv', hrest', rfl⟩ := reduceEach_cons_eq_ok.mp hlater
    have hsame := h [] v rest rfl (by simp) later hv'
    obtain rfl : outcome = later := Except.ok.inj (hv.symm.trans hsame)
    cases outcome with
    | value w => rfl
    | noValue =>
      change (others.flatMap Outcome.item).head? = (laters.flatMap Outcome.item).head?
      refine ih (fun before u after heq hbefore => ?_) hrest hrest'
      refine h (v :: before) u after (by rw [heq, List.cons_append]) ?_
      exact List.forall_mem_cons.mpr ⟨hv', hbefore⟩

/-- No part up to the first one that gives a value is known later only, unless a call hinges on
it. -/
theorem alike_of_not_hingesHere {function : Text} (hf : function ∈ [join, ifElse, split])
    {items : List Value} (hhinges : ¬ HingesHere d d' function (.list items)) :
    ∀ before v after, items = before ++ v :: after →
      (∀ u ∈ before, standard.reduce d' u = .ok .noValue) → Alike d d' v := by
  rintro before v after rfl hbefore
  by_contra h
  exact hhinges (.first hf hbefore h)

/-- The parts of an argument that are looked at one by one. -/
theorem exists_parts {function : Text} (hf : function ∈ [findInMap, join, select, split])
    {items : List Value} (h : ∀ v ∈ items, SucceedsBelow d d' v)
    (hhinges : ¬ HingesHere d d' function (.list items)) {laters : List Outcome}
    (hok : standard.reduceEach d' items = .ok laters) :
    ∃ outcomes, standard.reduceEach d items = .ok outcomes ∧
      ArgumentBelow function (.list (outcomes.flatMap Outcome.item))
        (.list (laters.flatMap Outcome.item)) := by
  have hlifted : ∀ v ∈ items, ∀ later ∈ laters, standard.reduce d' v = .ok later →
      ∃ outcome, standard.reduce d v = .ok outcome ∧
        Outcome.Lifted Value.Below outcome later := by
    intro v hv later _ hlater
    obtain ⟨outcome, houtcome, hbelow⟩ := h v hv later hlater
    refine ⟨outcome, houtcome, hbelow.lifted ?_⟩
    rintro rfl
    by_contra hne
    refine hhinges (.count hf hv hlater fun halike => hne ?_)
    exact Except.ok.inj (houtcome.symm.trans (halike _ hlater))
  obtain ⟨outcomes, houtcomes, hall⟩ := exists_reduceEach hlifted hok
  refine ⟨outcomes, houtcomes, .parts ?_ (Outcome.forall₂_items hall) fun hfirst => ?_⟩
  · simp only [List.mem_cons, List.not_mem_nil, or_false] at hf ⊢
    tauto
  · exact head?_of_reduceEach (alike_of_not_hingesHere hfirst hhinges) houtcomes hok

/-- The parts of a conditional keep their places. -/
theorem exists_branches {items : List Value} (h : ∀ v ∈ items, SucceedsBelow d d' v)
    (hhinges : ¬ HingesHere d d' ifElse (.list items)) {laters : List Outcome}
    (hok : standard.reduceEach d' items = .ok laters) :
    ∃ outcomes, standard.reduceEach d items = .ok outcomes ∧
      ArgumentBelow ifElse (.list (outcomes.map Outcome.kept))
        (.list (laters.map Outcome.kept)) := by
  obtain ⟨outcomes, houtcomes, hall⟩ :=
    exists_reduceEach (fun v hv later _ hlater => h v hv later hlater) hok
  refine ⟨outcomes, houtcomes, .parts (by decide) ?_ fun _ => ?_⟩
  · rw [List.forall₂_map_left_iff, List.forall₂_map_right_iff]
    exact hall.imp fun _ _ hbelow => hbelow.value_kept
  · cases items with
    | nil =>
      rw [reduceEach_nil] at houtcomes hok
      rw [← Except.ok.inj houtcomes, ← Except.ok.inj hok]
    | cons v rest =>
      obtain ⟨outcome, others, hv, -, rfl⟩ := reduceEach_cons_eq_ok.mp houtcomes
      obtain ⟨later, laters, hv', -, rfl⟩ := reduceEach_cons_eq_ok.mp hok
      have halike : Alike d d' v := alike_of_not_hingesHere (by decide) hhinges [] v rest rfl
        (by simp)
      obtain rfl : outcome = later := Except.ok.inj (hv.symm.trans (halike later hv'))
      rfl

/-- What gives no value, or an atom, is an atom or a call. -/
theorem isAtom_or_isCall_of_reduce {v : Value} (hok : standard.reduce d v = .ok outcome)
    (h : ∀ w, outcome = .value w → w.isAtom = true) : v.isAtom = true ∨ v.isCall = true := by
  cases v with
  | null | bool | int | double | string => exact .inl rfl
  | list items =>
    obtain ⟨outcomes, -, rfl⟩ := reduce_list_eq_ok.mp hok
    cases h _ rfl
  | map entries =>
    cases hcall : call? entries with
    | some pair => exact .inr (by rw [Value.isCall, hcall]; rfl)
    | none =>
      obtain ⟨outcomes, -, rfl⟩ := (reduce_plain_eq_ok hcall).mp hok
      cases h _ rfl

/-- Where all parts need to be known, no part that is a call is known later only, unless the call
around it hinges on it. -/
theorem alike_of_part {function : Text} (hf : function ∈ [getAtt, sub]) {items : List Value}
    (hhinges : ¬ HingesHere d d' function (.list items)) {v : Value} (hv : v ∈ items)
    (hcall : v.isCall = true) : Alike d d' v := by
  by_contra h
  exact hhinges (.part hf hv hcall h)

/-- The parts of an argument that names an attribute are all known already. -/
theorem reduceEach_of_attributeParts {items : List Value}
    (hhinges : ¬ HingesHere d d' getAtt (.list items)) {laters : List Outcome}
    (hok : standard.reduceEach d' items = .ok laters)
    (hatoms : ∀ v ∈ laters.flatMap Outcome.item, v.isAtom = true) :
    standard.reduceEach d items = .ok laters := by
  have halike : ∀ v ∈ items, ∀ later ∈ laters, standard.reduce d' v = .ok later →
      ∃ outcome, standard.reduce d v = .ok outcome ∧ outcome = later := by
    intro v hv later hmem hlater
    refine ⟨later, ?_, rfl⟩
    have hatom : ∀ w, later = .value w → w.isAtom = true := by
      rintro w rfl
      exact hatoms w (Outcome.mem_items.mpr hmem)
    rcases isAtom_or_isCall_of_reduce hlater hatom with hv' | hcall
    · rw [reduce_atom hv'] at hlater ⊢
      exact hlater
    · exact alike_of_part (by decide) hhinges hv hcall later hlater
  obtain ⟨outcomes, houtcomes, hall⟩ := exists_reduceEach halike hok
  rw [List.forall₂_eq_eq_eq] at hall
  exact hall ▸ houtcomes

/-- The entries of a map that is no call give something now if they do when more is known. -/
def EntriesSucceedBelow (d d' : Deployment) (v : Value) : Prop :=
  ∀ entries, v = .map entries → call? entries = none → ∀ entry ∈ entries,
    SucceedsBelow d d' entry.2

/-- Two values are the same, or maps of local variables the second of which knows more. -/
def SameOrLocals (v w : Value) : Prop :=
  v = w ∨ ∃ locals locals', v = .map locals ∧ w = .map locals' ∧ LocalsGrow locals locals'

/-- A part of the argument of a substitution is the same now, or a map of local variables in which
less is known. -/
theorem exists_lifted_part {v : Value} (h : EntriesSucceedBelow d d' v)
    (hcall : v.isCall = true → Alike d d' v) (hlater : standard.reduce d' v = .ok later)
    (hlist : ∀ items, later ≠ .value (.list items)) :
    ∃ outcome, standard.reduce d v = .ok outcome ∧
      Outcome.Lifted SameOrLocals outcome later := by
  have hsame : Outcome.Lifted SameOrLocals later later := by
    cases later with
    | noValue => exact .noValue
    | value w => exact .value (.inl rfl)
  cases v with
  | null | bool | int | double | string =>
    rw [reduce_atom rfl] at hlater
    exact ⟨later, (reduce_atom rfl).trans hlater, hsame⟩
  | list others =>
    obtain ⟨inner, -, rfl⟩ := reduce_list_eq_ok.mp hlater
    exact absurd rfl (hlist _)
  | map entries =>
    cases hentries : call? entries with
    | some pair =>
      exact ⟨later, hcall (by rw [Value.isCall, hentries]; rfl) later hlater, hsame⟩
    | none =>
      obtain ⟨named', hnamed', rfl⟩ := (reduce_plain_eq_ok hentries).mp hlater
      obtain ⟨named, hnamed, hbelow⟩ := exists_reduceNamed (h entries rfl hentries) hnamed'
      exact ⟨_, (reduce_plain_eq_ok hentries).mpr ⟨named, hnamed, rfl⟩,
        .value (.inr ⟨_, _, rfl, rfl, hbelow.localsGrow⟩)⟩

/-- The text and the local variables of a substitution. -/
theorem exists_substitution_parts {items : List Value}
    (h : ∀ v ∈ items, EntriesSucceedBelow d d' v)
    (hhinges : ¬ HingesHere d d' sub (.list items)) {laters : List Outcome}
    (hok : standard.reduceEach d' items = .ok laters) {text : Text} {locals' : Fields Value}
    (hlaters : laters.flatMap Outcome.item = [.string text, .map locals']) :
    ∃ outcomes, standard.reduceEach d items = .ok outcomes ∧
      ArgumentBelow sub (.list (outcomes.flatMap Outcome.item))
        (.list [.string text, .map locals']) := by
  have hlifted : ∀ v ∈ items, ∀ later ∈ laters, standard.reduce d' v = .ok later →
      ∃ outcome, standard.reduce d v = .ok outcome ∧
        Outcome.Lifted SameOrLocals outcome later := by
    intro v hv later hmem hlater
    refine exists_lifted_part (h v hv) (alike_of_part (by decide) hhinges hv) hlater ?_
    rintro others rfl
    have hothers := Outcome.mem_items.mpr hmem
    rw [hlaters] at hothers
    simp at hothers
  obtain ⟨outcomes, houtcomes, hall⟩ := exists_reduceEach hlifted hok
  have hitems := Outcome.forall₂_items hall
  rw [hlaters] at hitems
  refine ⟨outcomes, houtcomes, ?_⟩
  generalize outcomes.flatMap Outcome.item = parts at hitems
  rcases hitems with _ | ⟨htext, _ | ⟨hlocals, _ | _⟩⟩
  rcases htext with rfl | ⟨_, _, -, heq, -⟩
  · rcases hlocals with rfl | ⟨locals, _, rfl, heq, hgrow⟩
    · exact .same sub _
    · obtain rfl := Value.map.inj heq
      exact .locals text hgrow
  · cases heq

theorem exists_of_evalSub_list {items : List Value} (h : evalSub d (.list items) = .ok outcome) :
    ∃ text locals, items = [.string text, .map locals] := by
  unfold evalSub at h
  split at h
  · next heq => cases heq
  · next text locals heq => exact ⟨text, locals, Value.list.inj heq⟩
  all_goals cases h

theorem isAtom_of_evalGetAtt {items : List Value}
    (h : evalGetAtt d (.list items) = .ok outcome) : ∀ v ∈ items, v.isAtom = true := by
  obtain ⟨target, htarget, -⟩ := bind_eq_ok.mp h
  exact isAtom_of_attributeTarget htarget

/-- A function that wants an argument of a certain shape does not take a list, looks at its parts
one by one, or needs to know all of them. -/
theorem cases_of_demanding : ∀ function ∈ demanding,
    (function = ref ∨ function = condition) ∨ function = ifElse ∨
      function ∈ [findInMap, join, select, split] ∨ function = getAtt ∨ function = sub := by
  decide

/-- The list that is the argument of a call. -/
theorem exists_list_argument {function : Text} (hf : function ∈ demanding) {items : List Value}
    (h : ∀ v ∈ items, SucceedsBelow d d' v ∧ EntriesSucceedBelow d d' v)
    (hhinges : ¬ HingesHere d d' function (.list items)) {laters : List Outcome}
    (hok : standard.reduceEach d' items = .ok laters)
    (hinvoke' : standard.invoke d' function (Outcome.gathered function laters) = .ok later) :
    ∃ outcomes, standard.reduceEach d items = .ok outcomes ∧
      ArgumentBelow function (Outcome.gathered function outcomes)
        (Outcome.gathered function laters) := by
  have hsucceeds : ∀ v ∈ items, SucceedsBelow d d' v := fun v hv => (h v hv).1
  rcases cases_of_demanding function hf with hnone | rfl | hparts | rfl | rfl
  · rcases hnone with rfl | rfl
    · nomatch eval_of_invoke .ref (by decide) hinvoke'
    · nomatch eval_of_invoke .condition (by decide) hinvoke'
  · simp only [Outcome.gathered_ifElse]
    exact exists_branches hsucceeds hhinges hok
  · have hif : function ≠ ifElse := by
      rintro rfl
      exact absurd hparts (by decide)
    simp only [Outcome.gathered_of_ne hif]
    exact exists_parts hparts hsucceeds hhinges hok
  · rw [Outcome.gathered_of_ne (by decide)] at hinvoke'
    have hatoms := isAtom_of_evalGetAtt (eval_of_invoke .getAtt (by decide) hinvoke')
    exact ⟨laters, reduceEach_of_attributeParts hhinges hok hatoms, .same _ _⟩
  · rw [Outcome.gathered_of_ne (by decide)] at hinvoke'
    obtain ⟨text, locals', hlaters⟩ :=
      exists_of_evalSub_list (eval_of_invoke .sub (by decide) hinvoke')
    simp only [Outcome.gathered_of_ne (show sub ≠ ifElse by decide), hlaters]
    exact exists_substitution_parts (fun v hv => (h v hv).2) hhinges hok hlaters

/-- An argument gives something now if it does when more is known and the call succeeds then. -/
theorem exists_argument {argument evaluated' : Value} {function : Text}
    (h : SucceedsBelow d d' argument)
    (hitems : ∀ items, argument = .list items → ∀ v ∈ items,
      SucceedsBelow d d' v ∧ EntriesSucceedBelow d d' v)
    (hhinges : ¬ HingesHere d d' function argument)
    (hevaluated' : standard.reduceArgument d' function argument = .ok evaluated')
    (hinvoke' : standard.invoke d' function evaluated' = .ok later) :
    ∃ evaluated, standard.reduceArgument d function argument = .ok evaluated ∧
      ArgumentBelow function evaluated evaluated' := by
  cases argument with
  | list items =>
    obtain ⟨laters, hlaters, rfl⟩ := reduceArgument_list_eq_ok.mp hevaluated'
    by_cases hf : function ∈ demanding
    · obtain ⟨outcomes, houtcomes, hbelow⟩ :=
        exists_list_argument hf (hitems items rfl) hhinges hlaters hinvoke'
      exact ⟨_, reduceArgument_list_eq_ok.mpr ⟨outcomes, houtcomes, rfl⟩, hbelow⟩
    · obtain ⟨outcomes, houtcomes, -⟩ := exists_reduceEach
        (fun v hv other _ hother => (hitems items rfl v hv).1 other hother) hlaters
      exact ⟨_, reduceArgument_list_eq_ok.mpr ⟨outcomes, houtcomes, rfl⟩, .unread hf _ _⟩
  | null | bool | int | double | string | map =>
    obtain ⟨other, hother, rfl⟩ := (reduceArgument_eq_ok (by simp)).mp hevaluated'
    by_cases hf : function ∈ demanding
    · refine ⟨_, (reduceArgument_eq_ok (by simp)).mpr ⟨other, ?_, rfl⟩, .same _ _⟩
      by_contra hne
      exact hhinges (.argument hf (by simp) fun halike => hne (halike other hother))
    · obtain ⟨outcome, houtcome, -⟩ := h other hother
      exact ⟨_, (reduceArgument_eq_ok (by simp)).mpr ⟨outcome, houtcome, rfl⟩, .unread hf _ _⟩

/-- **What succeeds when more is known succeeds now**, unless some call hinges on what is known
later only. -/
theorem succeedsBelow (hd : d.GrowsTo d')
    (hdeclared : ∀ name, d'.declaresResource name = true → d.declaresResource name = true)
    {v : Value} (hhinges : ¬ Hinges d d' v) :
    SucceedsBelow d d' v ∧ EntriesSucceedBelow d d' v := by
  induction v using Value.induction with
  | atom v hv =>
    refine ⟨fun later hok => ?_, ?_⟩
    · rw [reduce_atom hv] at hok ⊢
      exact ⟨later, hok, .refl later⟩
    · rintro entries rfl
      cases hv
  | list items ih =>
    refine ⟨fun later hok => ?_, by rintro _ ⟨⟩⟩
    obtain ⟨laters, hlaters, rfl⟩ := reduce_list_eq_ok.mp hok
    obtain ⟨outcomes, houtcomes, -⟩ := exists_reduceEach
      (fun v hv other _ hother => (ih v hv fun h => hhinges (.item hv h)).1 other hother) hlaters
    exact ⟨_, reduce_list_eq_ok.mpr ⟨outcomes, houtcomes, rfl⟩, .list _ _⟩
  | plain entries hcall ih =>
    have hentries : ∀ entry ∈ entries, SucceedsBelow d d' entry.2 := fun entry hentry =>
      (ih entry hentry fun h =>
        hhinges (.entry hentry (Value.isDeferredCall_of_plain hcall) h)).1
    refine ⟨fun later hok => ?_, ?_⟩
    · obtain ⟨laters, hlaters, rfl⟩ := (reduce_plain_eq_ok hcall).mp hok
      obtain ⟨outcomes, houtcomes, hbelow⟩ := exists_reduceNamed hentries hlaters
      refine ⟨_, (reduce_plain_eq_ok hcall).mpr ⟨outcomes, houtcomes, rfl⟩, .map fun hmissing => ?_⟩
      have hleft : Outcome.entries outcomes = [(ref, .string noValue)] := Value.map.inj hmissing
      have hatoms : ∀ entry ∈ Outcome.entries outcomes, entry.2.isAtom = true := by
        rw [hleft]
        simp [Value.isAtom]
      rw [Outcome.kept, hbelow.entries_eq hatoms, hmissing]
    · rintro _ heq -
      obtain rfl := Value.map.inj heq
      exact hentries
  | call function argument hname ih ihs =>
    refine ⟨fun later hok => ?_, ?_⟩
    · cases hdeferred : isDeferred function with
      | true =>
        rw [reduce_deferred hname hdeferred] at hok ⊢
        exact ⟨later, hok, .refl later⟩
      | false =>
        have hinner : ¬ Hinges d d' argument := fun h =>
          hhinges (.entry List.mem_cons_self hdeferred h)
        obtain ⟨evaluated', hevaluated', hinvoke'⟩ := (reduce_call_eq_ok hname hdeferred).mp hok
        obtain ⟨evaluated, hevaluated, hbelow⟩ := exists_argument (ih hinner).1
          (fun items hitems v hv => ihs items hitems v hv fun h => hinner (hitems ▸ .item hv h))
          (fun h => hhinges (.here hname hdeferred h)) hevaluated' hinvoke'
        obtain ⟨outcome, hinvoke, hlater⟩ := invoke_below hd hdeclared hbelow hinvoke'
        exact ⟨outcome, (reduce_call_eq_ok hname hdeferred).mpr ⟨evaluated, hevaluated, hinvoke⟩,
          hlater⟩
    · rintro entries heq hplain
      obtain rfl := Value.map.inj heq
      rw [Intrinsic.call?_call _ hname] at hplain
      cases hplain

end Dispatch

end Intrinsic

end CloudTemplate
