import Mathlib.Data.List.Basic
import CloudTemplate.Proofs.Substitution.Scanning

/-!
# Substitution in stages

As long as a variable is not known, substitution gives a text with variables again, in which every
token stands for a variable that is still pending.  When more is known later, substituting in that
text, with the local variables that it carries along, gives what substituting in the original text
gives then (`Substitution.substitute_render`).
-/

namespace CloudTemplate

/-- A later state of a deployment: over the same template and with the same pseudo-parameters, all
values of parameters, attributes and outcomes of conditions that were known are the same. -/
structure Deployment.GrowsTo (d d' : Deployment) : Prop where
  template : d'.template = d.template
  pseudo : ∀ name, d'.pseudo.get? name = d.pseudo.get? name
  parameters : ∀ {name v}, d.parameters.get? name = some v → d'.parameters.get? name = some v
  attributes : ∀ {resource attr v},
    d.attribute? resource attr = some v → d'.attribute? resource attr = some v
  conditions : ∀ {name b}, d.conditions.get? name = some b → d'.conditions.get? name = some b

namespace Substitution

/-- A later state of local variables: none is added, and those that have a text keep their value. -/
structure LocalsGrow (locals locals' : Fields Value) : Prop where
  absent : ∀ {name}, locals.get? name = none → locals'.get? name = none
  scalar : ∀ {name v t}, locals.get? name = some v → scalarText? v = some t →
    locals'.get? name = some v

variable {d d' : Deployment} {locals locals' : Fields Value}

/-- The text of a variable does not change once it is known. -/
theorem lookup_mono (hd : d.GrowsTo d') (hlocals : LocalsGrow locals locals') {name t : Text}
    (h : lookup d locals name = some t) : lookup d' locals' name = some t := by
  unfold lookup at h ⊢
  cases hlocal : locals.get? name with
  | some v =>
    rw [hlocal] at h
    rw [hlocals.scalar hlocal h]
    exact h
  | none =>
    rw [hlocal] at h
    rw [hlocals.absent hlocal]
    dsimp only at h ⊢
    split at h
    · obtain ⟨v, hv, ht⟩ := Option.bind_eq_some_iff.mp h
      rw [hd.attributes hv, Option.bind_some, ht]
    · rw [hd.pseudo]
      split at h
      · exact h
      · obtain ⟨v, hv, ht⟩ := Option.map_eq_some_iff.mp h
        obtain ⟨u, hu, hv⟩ := Option.bind_eq_some_iff.mp hv
        rw [hd.parameters hu, Option.bind_some, hv, Option.map_some, ht]

/-! ### The pieces of a text that is rendered -/

/-- What becomes of a piece as long as some variable is pending. -/
def advance (d : Deployment) (locals : Fields Value) : Piece → List Piece
  | .literal c => [.literal c]
  | .token name =>
    if isEscape name then [.token name]
    else
      match lookup d locals name with
      | some t => t.map .literal
      | none => [.token name]

theorem written_advance (piece : Piece) :
    (advance d locals piece).flatMap Piece.written = renderPiece d locals false piece := by
  cases piece with
  | literal c => rfl
  | token name =>
    rw [advance, renderPiece]
    by_cases hescape : isEscape name = true
    · simp [hescape, Piece.written]
    · cases hlookup : lookup d locals name with
      | some t => simp [hescape, written_map_literal]
      | none => simp [hescape, Piece.written]

/-- As long as some variable is pending, a text is left that the pieces write. -/
theorem render_of_pending {pieces : List Piece} (h : pending d locals pieces ≠ []) :
    render d locals pieces = (pieces.flatMap (advance d locals)).flatMap Piece.written := by
  rw [render, List.isEmpty_eq_false_iff.mpr h, List.flatMap_assoc]
  simp only [written_advance]

theorem variableNames_append (pieces more : List Piece) :
    variableNames (pieces ++ more) = variableNames pieces ++ variableNames more :=
  List.filterMap_append

theorem variableNames_map_literal (t : Text) : variableNames (t.map Piece.literal) = [] := by
  induction t with
  | nil => rfl
  | cons c t ih => exact ih

/-- The variables of the text that is rendered are those that are pending. -/
theorem variableNames_advance (pieces : List Piece) :
    variableNames (pieces.flatMap (advance d locals)) = pending d locals pieces := by
  induction pieces with
  | nil => rfl
  | cons piece rest ih =>
    rw [List.flatMap_cons, variableNames_append, ih]
    cases piece with
    | literal c => rfl
    | token name =>
      rw [advance]
      by_cases hescape : isEscape name = true
      · simp [hescape, variableNames, pending]
      · cases hlookup : lookup d locals name with
        | some t =>
          rw [if_neg hescape, variableNames_map_literal]
          simp [hescape, hlookup, variableNames, pending]
        | none => simp [hescape, hlookup, variableNames, pending]

theorem mem_variableNames {pieces : List Piece} {name : Text} (h : Piece.token name ∈ pieces)
    (hescape : ¬ isEscape name = true) : name ∈ variableNames pieces :=
  List.mem_filterMap.mpr ⟨_, h, if_neg hescape⟩

theorem mem_pending {pieces : List Piece} {name : Text} (h : Piece.token name ∈ pieces)
    (hescape : ¬ isEscape name = true) (hlookup : lookup d locals name = none) :
    name ∈ pending d locals pieces :=
  List.mem_filter.mpr ⟨mem_variableNames h hescape, by rw [hlookup]; rfl⟩

/-- A piece of a text that is rendered is one of the original text, or it is from the text of a
variable that is known. -/
theorem mem_advance {pieces : List Piece} {piece : Piece}
    (h : piece ∈ pieces.flatMap (advance d locals)) :
    piece ∈ pieces ∨ ∃ name t c, name ∈ variableNames pieces ∧ lookup d locals name = some t ∧
      c ∈ t ∧ piece = .literal c := by
  obtain ⟨original, horiginal, hmem⟩ := List.mem_flatMap.mp h
  cases original with
  | literal c => exact .inl (List.mem_singleton.mp hmem ▸ horiginal)
  | token name =>
    rw [advance] at hmem
    split at hmem
    · exact .inl (List.mem_singleton.mp hmem ▸ horiginal)
    · next hescape =>
      split at hmem
      · next t ht =>
        obtain ⟨c, hc, rfl⟩ := List.mem_map.mp hmem
        exact .inr ⟨name, t, c, mem_variableNames horiginal hescape, ht, hc, rfl⟩
      · exact .inl (List.mem_singleton.mp hmem ▸ horiginal)

section Rendered

variable {text : Text} (hliteral : ∀ c, Piece.literal c ∈ scan text → c ≠ dollar)
  (hknown : ∀ name ∈ variableNames (scan text), ∀ t, lookup d locals name = some t → dollar ∉ t)
include hliteral hknown

/-- The pieces of a text that is rendered stand apart. -/
theorem standsApart_of_mem_advance {piece : Piece}
    (h : piece ∈ (scan text).flatMap (advance d locals)) : piece.StandsApart := by
  rcases mem_advance h with horiginal | ⟨name, t, c, hname, ht, hc, rfl⟩
  · cases piece with
    | literal c => exact hliteral c horiginal
    | token name => exact token_of_mem_scan horiginal
  · exact ne_of_mem_of_not_mem hc (hknown name hname t ht)

theorem scan_render (hpending : pending d locals (scan text) ≠ []) :
    scan (render d locals (scan text)) = (scan text).flatMap (advance d locals) := by
  rw [render_of_pending hpending,
    scan_written fun piece => standsApart_of_mem_advance hliteral hknown]

end Rendered

/-! ### What is not asked for makes no difference -/

theorem pending_congr {pieces : List Piece}
    (h : ∀ name ∈ variableNames pieces, lookup d' locals' name = lookup d locals name) :
    pending d' locals' pieces = pending d locals pieces :=
  List.filter_congr fun name hname => by rw [h name hname]

/-- Only the variables that a text names count when it is rendered. -/
theorem render_congr {pieces : List Piece}
    (h : ∀ name ∈ variableNames pieces, lookup d' locals' name = lookup d locals name) :
    render d' locals' pieces = render d locals pieces := by
  rw [render, render, pending_congr h]
  refine List.flatMap_congr fun piece hpiece => ?_
  cases piece with
  | literal c => rfl
  | token name =>
    rw [renderPiece, renderPiece]
    by_cases hescape : isEscape name = true
    · rw [if_pos hescape, if_pos hescape]
    · rw [if_neg hescape, if_neg hescape, h name (mem_variableNames hpiece hescape)]

/-- Local variables that the text does not ask for make no difference. -/
theorem substitute_of_unasked {text : Text}
    (h : ∀ entry ∈ locals, entry.1 ∉ variableNames (scan text)) :
    substitute d locals text = substitute d [] text := by
  have hlookup : ∀ name ∈ variableNames (scan text), lookup d locals name = lookup d [] name := by
    intro name hname
    have hget : locals.get? name = none := Option.eq_none_iff_forall_ne_some.mpr fun v hv =>
      h _ (Fields.mem_of_get? hv) hname
    rw [lookup, hget]
    rfl
  have hcarried : carried d locals (scan text) = carried d [] (scan text) := by
    refine List.filter_eq_nil_iff.mpr fun entry hentry hasked => h entry hentry ?_
    exact List.mem_of_mem_filter (List.contains_iff_mem.mp hasked)
  simp only [substitute, pending_congr hlookup, render_congr hlookup, hcarried]

/-! ### Substitution at a later time -/

/-- The local variables that are still pending. -/
def needed (d : Deployment) (locals : Fields Value) (text : Text) (locals' : Fields Value) :
    Fields Value :=
  locals'.filter fun entry => (pending d locals (scan text)).contains entry.1

section Later

variable {text : Text} (hd : d.GrowsTo d') (hlocals : LocalsGrow locals locals')
include hd hlocals

/-- What is pending later was pending before. -/
theorem pending_pending (pieces : List Piece) :
    (pending d locals pieces).filter (fun name => (lookup d' locals' name).isNone) =
      pending d' locals' pieces := by
  rw [pending, List.filter_filter, pending]
  refine List.filter_congr fun name _ => ?_
  cases h : lookup d locals name with
  | none => simp
  | some t => simp [lookup_mono hd hlocals h]

/-- Nothing changes in a text in which no variable is pending. -/
theorem substitute_of_pending_eq_nil (h : pending d locals (scan text) = []) :
    substitute d' locals' text = substitute d locals text := by
  have hlookup : ∀ name ∈ variableNames (scan text),
      lookup d' locals' name = lookup d locals name := by
    intro name hname
    cases hknown : lookup d locals name with
    | some t => exact lookup_mono hd hlocals hknown
    | none =>
      have hmem : name ∈ pending d locals (scan text) :=
        List.mem_filter.mpr ⟨hname, Option.isNone_iff_eq_none.mpr hknown⟩
      rw [h] at hmem
      cases hmem
  rw [substitute_eq_string h, substitute_eq_string ((pending_congr hlookup).trans h),
    render_congr hlookup]

/-- What becomes of a piece is rendered later as the piece itself, by local variables among which
the pending ones are the same. -/
theorem renderPiece_advance {kept : Fields Value} {pieces : List Piece}
    (hkept : ∀ name ∈ pending d locals pieces, lookup d' kept name = lookup d' locals' name)
    (final : Bool) {piece : Piece} (hpiece : piece ∈ pieces) :
    (advance d locals piece).flatMap (renderPiece d' kept final) =
      renderPiece d' locals' final piece := by
  cases piece with
  | literal c => simp [advance, renderPiece]
  | token name =>
    rw [advance]
    by_cases hescape : isEscape name = true
    · simp [hescape, renderPiece]
    · cases hname : lookup d locals name with
      | some t =>
        have hliterals : (t.map Piece.literal).flatMap (renderPiece d' kept final) = t := by
          rw [List.flatMap_map]
          exact List.flatMap_singleton' t
        simp only [if_neg hescape, hliterals, renderPiece, lookup_mono hd hlocals hname]
      | none => simp [hescape, renderPiece, hkept name (mem_pending hpiece hescape hname)]

/-- **A text that is rendered stands for the original.**  Substituting in it, with the local
variables that are still pending, gives what substituting in the original text gives. -/
theorem substitute_render (hliteral : ∀ c, Piece.literal c ∈ scan text → c ≠ dollar)
    (hknown : ∀ name ∈ variableNames (scan text), ∀ t, lookup d locals name = some t → dollar ∉ t)
    (hpending : pending d locals (scan text) ≠ []) :
    substitute d' (needed d locals text locals') (render d locals (scan text)) =
      substitute d' locals' text := by
  have hscan := scan_render hliteral hknown hpending
  have hlookup : ∀ name ∈ pending d locals (scan text),
      lookup d' (needed d locals text locals') name = lookup d' locals' name := by
    intro name hname
    have hget := Fields.get?_filter locals' ((pending d locals (scan text)).contains ·) name
    rw [if_pos (List.contains_iff_mem.mpr hname)] at hget
    rw [lookup, needed, hget, lookup]
  have hpend : pending d' (needed d locals text locals') ((scan text).flatMap (advance d locals)) =
      pending d' locals' (scan text) := by
    rw [← pending_pending hd hlocals, pending, variableNames_advance]
    exact List.filter_congr fun name hname => by rw [hlookup name hname]
  have hrender : render d' (needed d locals text locals')
      ((scan text).flatMap (advance d locals)) = render d' locals' (scan text) := by
    rw [render, render, hpend, List.flatMap_assoc]
    exact List.flatMap_congr fun _ => renderPiece_advance hd hlocals hlookup _
  have hcarried : carried d' (needed d locals text locals')
      ((scan text).flatMap (advance d locals)) = carried d' locals' (scan text) := by
    rw [carried, carried, hpend, needed, List.filter_filter]
    refine List.filter_congr fun entry _ => ?_
    rw [Bool.and_eq_left_iff_imp]
    intro hmem
    rw [List.contains_iff_mem, ← pending_pending hd hlocals] at hmem
    exact List.contains_iff_mem.mpr (List.mem_of_mem_filter hmem)
  simp only [substitute, hscan, hpend, hrender, hcarried]

end Later

end Substitution

end CloudTemplate
