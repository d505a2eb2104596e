import CloudTemplate.Text.CodePoint

/-!
# Sets of characters

A set of characters is given by ranges of code points, both ends included, in increasing order.
`isPartOf` and `isApartFrom` compare two sets by their ranges.
The small sets stand here: the blanks and the decimal digits of Unicode.
-/

namespace CloudTemplate

/-- A set of characters, by ranges of code points. -/
structure CharacterSet where
  ranges : List (Nat × Nat)

namespace CharacterSet

/-- Whether a code point lies in one of the ranges. -/
def contains (set : CharacterSet) (c : CodePoint) : Bool :=
  set.ranges.any fun range => range.1 ≤ c.value && c.value ≤ range.2

/-- Whether every range of a set lies in a range of another one. -/
def isPartOf (s t : CharacterSet) : Bool :=
  s.ranges.all fun r => t.ranges.any fun q => q.1.ble r.1 && r.2.ble q.2

/-- Whether no range of a set meets a range of another one. -/
def isApartFrom (s t : CharacterSet) : Bool :=
  s.ranges.all fun r => t.ranges.all fun q => r.2.blt q.1 || q.2.blt r.1

theorem contains_iff {s : CharacterSet} {c : CodePoint} :
    s.contains c = true ↔ ∃ r ∈ s.ranges, r.1 ≤ c.value ∧ c.value ≤ r.2 := by
  simp only [contains, List.any_eq_true, Bool.and_eq_true, decide_eq_true_eq]

theorem contains_of_isPartOf {s t : CharacterSet} (h : s.isPartOf t = true) {c : CodePoint}
    (hc : s.contains c = true) : t.contains c = true := by
  obtain ⟨r, hr, hfirst, hlast⟩ := contains_iff.mp hc
  obtain ⟨q, hq, hwithin⟩ := List.any_eq_true.mp (List.all_eq_true.mp h r hr)
  rw [Bool.and_eq_true, Nat.ble_eq, Nat.ble_eq] at hwithin
  exact contains_iff.mpr
    ⟨q, hq, Nat.le_trans hwithin.1 hfirst, Nat.le_trans hlast hwithin.2⟩

theorem not_contains_of_isApartFrom {s t : CharacterSet} (h : s.isApartFrom t = true)
    {c : CodePoint} (hc : s.contains c = true) : ¬ t.contains c = true := by
  intro htc
  obtain ⟨r, hr, hfirst, hlast⟩ := contains_iff.mp hc
  obtain ⟨q, hq, hfirst', hlast'⟩ := contains_iff.mp htc
  have hapart := List.all_eq_true.mp (List.all_eq_true.mp h r hr) q hq
  rw [Bool.or_eq_true, Nat.blt_eq, Nat.blt_eq] at hapart
  omega

/-- The characters that separate words: spaces, line ends and the separators of the ASCII control
characters. -/
def blank : CharacterSet :=
  ⟨[
    (9, 13), (28, 32), (133, 133), (160, 160), (5760, 5760), (8192, 8202), (8232, 8233),
    (8239, 8239), (8287, 8287), (12288, 12288)]⟩

/-- The decimal digits of all scripts. -/
def decimalDigit : CharacterSet :=
  ⟨[
    (48, 57), (1632, 1641), (1776, 1785), (1984, 1993), (2406, 2415), (2534, 2543),
    (2662, 2671), (2790, 2799), (2918, 2927), (3046, 3055), (3174, 3183), (3302, 3311),
    (3430, 3439), (3558, 3567), (3664, 3673), (3792, 3801), (3872, 3881), (4160, 4169),
    (4240, 4249), (6112, 6121), (6160, 6169), (6470, 6479), (6608, 6617), (6784, 6793),
    (6800, 6809), (6992, 7001), (7088, 7097), (7232, 7241), (7248, 7257), (42528, 42537),
    (43216, 43225), (43264, 43273), (43472, 43481), (43504, 43513), (43600, 43609),
    (44016, 44025), (65296, 65305), (66720, 66729), (68912, 68921), (69734, 69743),
    (69872, 69881), (69942, 69951), (70096, 70105), (70384, 70393), (70736, 70745),
    (70864, 70873), (71248, 71257), (71360, 71369), (71472, 71481), (71904, 71913),
    (72016, 72025), (72784, 72793), (73040, 73049), (73120, 73129), (92768, 92777),
    (92864, 92873), (93008, 93017), (120782, 120831), (123200, 123209), (123632, 123641),
    (125264, 125273), (130032, 130041)]⟩

end CharacterSet

end CloudTemplate
