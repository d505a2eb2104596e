import CloudTemplate.Text

/-!
# Cutting text

Text is cut once, at the first separator (`cut`), and put together with a separator between each two
parts (`join`).  All of it is recursion on the code points.
-/

namespace CloudTemplate.Text

/-- The text before the first separator, and the text after it if there is one. -/
def cut (separator : CodePoint) : Text → Text × Option Text
  | [] => ([], none)
  | c :: rest =>
    if c = separator then ([], some rest)
    else
      let (before, after) := cut separator rest
      (c :: before, after)

/-- The text before the first separator, all of it if there is none. -/
def before (separator : CodePoint) (t : Text) : Text :=
  (cut separator t).1

/-- Texts with a separator between each two. -/
def join (separator : Text) : List Text → Text
  | [] => []
  | [t] => t
  | t :: rest => t ++ separator ++ join separator rest

/-- The first separator is the one behind a text that has none. -/
theorem cut_append {separator : CodePoint} {t : Text} (h : separator ∉ t) (rest : Text) :
    cut separator (t ++ separator :: rest) = (t, some rest) := by
  induction t with
  | nil => simp [cut]
  | cons c t ih =>
    obtain ⟨hc, ht⟩ := not_or.mp (fun hmem => h (List.mem_cons.mpr hmem))
    rw [List.cons_append, cut, if_neg (Ne.symm hc), ih ht]

/-- A text without a separator is not cut. -/
theorem cut_of_not_mem {separator : CodePoint} {t : Text} (h : separator ∉ t) :
    cut separator t = (t, none) := by
  induction t with
  | nil => rfl
  | cons c t ih =>
    obtain ⟨hc, ht⟩ := not_or.mp (fun hmem => h (List.mem_cons.mpr hmem))
    rw [cut, if_neg (Ne.symm hc), ih ht]

/-- A text that is cut is the two parts with the separator between them. -/
theorem append_of_cut {separator : CodePoint} {t before after : Text}
    (h : cut separator t = (before, some after)) : t = before ++ separator :: after := by
  induction t generalizing before with
  | nil => nomatch h
  | cons c t ih =>
    rw [cut] at h
    split at h
    · next hc =>
      obtain ⟨rfl, hafter⟩ := Prod.mk.inj h
      rw [hc, Option.some.inj hafter, List.nil_append]
    · obtain ⟨rfl, hafter⟩ := Prod.mk.inj h
      rw [List.cons_append, ← ih (Prod.ext rfl hafter)]

theorem before_append {separator : CodePoint} {t : Text} (h : separator ∉ t) (rest : Text) :
    before separator (t ++ separator :: rest) = t := by
  rw [before, cut_append h]

/-- What comes behind a separator makes no difference to what stands before the first one. -/
theorem before_append_separator (separator : CodePoint) (t rest : Text) :
    before separator (t ++ separator :: rest) = before separator t := by
  induction t with
  | nil => simp [before, cut]
  | cons c t ih =>
    rw [before, before] at ih ⊢
    rw [List.cons_append, cut, cut]
    split
    · rfl
    · exact congrArg (c :: ·) ih

/-- There is no separator before the first one. -/
theorem separator_not_mem_before (separator : CodePoint) (t : Text) :
    separator ∉ before separator t := by
  induction t with
  | nil => simp [before, cut]
  | cons c t ih =>
    rw [before] at ih ⊢
    rw [cut]
    split
    · simp
    · next hc => exact List.not_mem_cons_of_ne_of_not_mem (Ne.symm hc) ih

/-- Each of the texts stands in what they make up together. -/
theorem infix_join {s t : Text} {texts : List Text} (h : t ∈ texts) : t <:+: join s texts := by
  induction texts with
  | nil => cases h
  | cons first rest ih =>
    match rest, h, ih with
    | [], h, _ =>
      obtain rfl := List.mem_singleton.mp h
      exact List.infix_refl _
    | next :: rest, h, ih =>
      rcases List.mem_cons.mp h with rfl | h
      · exact ⟨[], s ++ join s (next :: rest), (List.append_assoc t s _).symm⟩
      · exact (ih h).trans (List.suffix_append (first ++ s) _).isInfix

/-- Whether a text begins with another. -/
def startsWith (start t : Text) : Bool :=
  start.isPrefixOf t

/-- Whether a text stands somewhere inside another. -/
def occursIn (word : Text) : Text → Bool
  | [] => word.isEmpty
  | c :: rest => word.isPrefixOf (c :: rest) || occursIn word rest

theorem occursIn_iff {word t : Text} : occursIn word t = true ↔ word <:+: t := by
  induction t with
  | nil => rw [occursIn, List.isEmpty_iff, List.infix_nil]
  | cons c rest ih =>
    rw [occursIn, Bool.or_eq_true_iff, List.isPrefixOf_iff_prefix, ih, List.infix_cons_iff]

/-- A text with the letters `A` to `Z` in lower case. -/
def lowerCase (t : Text) : Text :=
  t.map fun
    | .char c => .char c.toLower
    | c => c

end CloudTemplate.Text
