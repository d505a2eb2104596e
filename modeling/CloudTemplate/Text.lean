import CloudTemplate.Text.CodePoint

/-!
# Text

A text is a list of code points.  Texts are ordered like words in a dictionary, by the values of
their code points.

What the program itself says is written in strings, which hold characters only.  A string counts as
the text of its characters wherever a text is due; `Text.ofString_inj` and `Text.ofString_append`
say that nothing is lost on the way.
-/

namespace CloudTemplate

/-- A row of code points. -/
abbrev Text := List CodePoint

namespace Text

/-- The text of some characters. -/
def ofChars (cs : List Char) : Text := cs.map .char

/-- The text of a string. -/
def ofString (s : String) : Text := ofChars s.toList

instance : Coe String Text := ⟨ofString⟩

/-- The text as a string, if it has no surrogates. -/
def string? (t : Text) : Option String :=
  (t.mapM CodePoint.char?).map String.ofList

/-- The text as far as a string can hold it: surrogates become replacement characters. -/
def display (t : Text) : String :=
  String.ofList (t.map fun c => c.char?.getD '\uFFFD')

@[simp]
theorem ofChars_inj {cs ds : List Char} : ofChars cs = ofChars ds ↔ cs = ds :=
  List.map_inj_right fun _ _ => CodePoint.char.inj

@[simp]
theorem ofChars_append (cs ds : List Char) : ofChars (cs ++ ds) = ofChars cs ++ ofChars ds :=
  List.map_append

/-- Different strings are different texts. -/
@[simp]
theorem ofString_inj {s t : String} : ofString s = ofString t ↔ s = t := by
  rw [ofString, ofString, ofChars_inj, String.toList_inj]

/-- A string put together is the text put together. -/
@[simp]
theorem ofString_append (s t : String) : ofString (s ++ t) = ofString s ++ ofString t := by
  simp [ofString]

instance : Std.Trichotomous (α := Text) (· < ·) where
  trichotomous _ _ hab hba := List.le_antisymm (List.not_lt.mp hba) (List.not_lt.mp hab)

protected theorem le_trans {a b c : Text} (hab : a ≤ b) (hbc : b ≤ c) : a ≤ c := by
  rcases Std.lt_trichotomy a b with hlt | rfl | hgt
  · exact List.not_lt.mp fun hca => List.not_lt.mpr hbc (Std.lt_trans hca hlt)
  · exact hbc
  · exact absurd hgt (List.not_lt.mpr hab)

/-- Sorted texts are in dictionary order. -/
theorem pairwise_mergeSort (texts : List Text) :
    (texts.mergeSort fun a b => a ≤ b).Pairwise (· ≤ ·) := by
  refine (List.pairwise_mergeSort (fun a b c hab hbc => ?_) (fun a b => ?_) texts).imp
    of_decide_eq_true
  · exact decide_eq_true (Text.le_trans (of_decide_eq_true hab) (of_decide_eq_true hbc))
  · exact Bool.or_eq_true_iff.mpr ((List.le_total a b).imp decide_eq_true decide_eq_true)

/-- Different texts are in strict order when they are sorted. -/
theorem increasing_mergeSort {texts : List Text} (h : texts.Nodup) :
    (texts.mergeSort fun a b => a ≤ b).Pairwise (· < ·) := by
  have hnodup : (texts.mergeSort fun a b => a ≤ b).Nodup := (List.mergeSort_perm ..).nodup_iff.mpr h
  refine ((pairwise_mergeSort texts).and hnodup).imp fun {a b} hab => ?_
  rcases Std.lt_trichotomy a b with hlt | heq | hgt
  · exact hlt
  · exact absurd heq hab.2
  · exact absurd hgt (List.not_lt.mpr hab.1)

end Text

end CloudTemplate
