import CloudTemplate.Value.Text

/-!
# Dollar signs in the texts of values

A variable that is known is replaced by the text of its value.  If neither the strings nor the names
in a value hold a dollar sign, then its text holds none (`Value.dollar_not_mem_text`), so that no
token begins in it: numbers are written without one, and quoting puts none in.
-/

namespace CloudTemplate

/-- The code point with which every token begins. -/
def dollar : CodePoint := '$'

namespace Text

theorem dollar_mem_ofString {s : String} : dollar ∈ ofString s ↔ '$' ∈ s.toList := by
  simp [ofString, ofChars, dollar]

theorem not_mem_join {c : CodePoint} {s : Text} {texts : List Text} (hs : c ∉ s)
    (h : ∀ t ∈ texts, c ∉ t) : c ∉ join s texts := by
  induction texts with
  | nil => exact List.not_mem_nil
  | cons t rest ih =>
    have ht : c ∉ t := h t List.mem_cons_self
    have hrest := ih fun u hu => h u (List.mem_cons_of_mem _ hu)
    cases rest with
    | nil => exact ht
    | cons u rest =>
      rw [join]
      · exact List.not_mem_append (List.not_mem_append ht hs) hrest
      · simp

end Text

namespace Number

theorem dollar_not_mem_toDigits {base : Nat} (hb : 1 < base) (n : Nat) :
    '$' ∉ Nat.toDigits base n := by
  induction n using Nat.strongRecOn with
  | ind n ih =>
    rw [Nat.toDigits_eq_if hb]
    split
    · simp
    · have hlt : n / base < n := Nat.div_lt_self (by omega) hb
      simp [ih _ hlt]

theorem dollar_not_mem_natural (n : Nat) : '$' ∉ (natural n).toList := by
  rw [natural, String.toList_ofList]
  exact dollar_not_mem_toDigits (by decide) n

theorem dollar_not_mem_integer (n : Int) : '$' ∉ (integer n).toList := by
  cases n with
  | ofNat n => exact dollar_not_mem_natural n
  | negSucc n => simp [integer, dollar_not_mem_natural]

theorem dollar_not_mem_hexadecimal (width n : Nat) : '$' ∉ (hexadecimal width n).toList := by
  simp [hexadecimal, dollar_not_mem_toDigits]

theorem dollar_not_mem_exponent (e : Int) : '$' ∉ (exponent e).toList := by
  unfold exponent
  split <;> simp [dollar_not_mem_toDigits]

theorem dollar_not_mem_layout {digits : List Char} (h : '$' ∉ digits) (point : Int) :
    '$' ∉ (layout digits point).toList := by
  have htake (n : Nat) : '$' ∉ digits.take n := fun hmem => h (List.mem_of_mem_take hmem)
  have hdrop (n : Nat) : '$' ∉ digits.drop n := fun hmem => h (List.mem_of_mem_drop hmem)
  have htail : '$' ∉ digits.tail := fun hmem => h (List.mem_of_mem_tail hmem)
  unfold layout
  split
  · split
    · simp [h]
    · dsimp only
      split <;> simp [htake, hdrop]
  · dsimp only
    split <;> simp [htake, htail, dollar_not_mem_exponent]

theorem dollar_not_mem_decimal (d : Double.Decimal) : '$' ∉ (decimal d).toList := by
  refine dollar_not_mem_layout (fun h => ?_) _
  have hmem := (List.dropWhile_sublist _).subset (List.mem_reverse.mp h)
  exact dollar_not_mem_toDigits (by decide) d.digits (List.mem_reverse.mp hmem)

theorem dollar_not_mem_double (x : Double) : '$' ∉ (double .plain x).toList := by
  unfold double
  dsimp only
  split
  · decide
  · split <;> decide
  · split <;> split <;> simp [dollar_not_mem_decimal]

end Number

namespace Text

theorem dollar_not_mem_quotedPoint {quote c : CodePoint} (h : c ≠ dollar) :
    dollar ∉ quotedPoint quote c := by
  have hhex (width : Nat) : dollar ∉ ofString (Number.hexadecimal width c.value) := fun hmem =>
    Number.dollar_not_mem_hexadecimal width c.value (dollar_mem_ofString.mp hmem)
  unfold quotedPoint
  split
  · simpa using ⟨by decide, h.symm⟩
  split
  · decide
  split
  · decide
  split
  · decide
  split
  · simpa using h.symm
  split
  · exact List.not_mem_append (by decide) (hhex 2)
  split
  · exact List.not_mem_append (by decide) (hhex 4)
  · exact List.not_mem_append (by decide) (hhex 8)

theorem dollar_not_mem_quoted {t : Text} (h : dollar ∉ t) : dollar ∉ quoted t := by
  have hquote : dollar ≠ quoteFor t := by
    unfold quoteFor
    split <;> decide
  have hpoints : dollar ∉ t.flatMap (quotedPoint (quoteFor t)) := by
    intro hmem
    obtain ⟨c, hc, hmem⟩ := List.mem_flatMap.mp hmem
    exact dollar_not_mem_quotedPoint (ne_of_mem_of_not_mem hc h) hmem
  simp [quoted, hquote, hpoints]

end Text

namespace Value

mutual

/-- Whether no string and no name in a value holds a dollar sign. -/
def isDollarFree : Value → Bool
  | .string s => !s.contains dollar
  | .list items => areDollarFree items
  | .map entries => entriesAreDollarFree entries
  | _ => true

/-- Whether this holds of all items of a list. -/
def areDollarFree : List Value → Bool
  | [] => true
  | v :: rest => v.isDollarFree && areDollarFree rest

/-- Whether this holds of all entries of a map. -/
def entriesAreDollarFree : List (Text × Value) → Bool
  | [] => true
  | (name, v) :: rest => !name.contains dollar && v.isDollarFree && entriesAreDollarFree rest

end

theorem isDollarFree_string {s : Text} : (string s).isDollarFree = true ↔ dollar ∉ s := by
  simp [isDollarFree]

mutual

/-- Without a dollar sign in a value there is none in a message that shows it. -/
theorem dollar_not_mem_quoted : ∀ {v : Value}, v.isDollarFree = true → dollar ∉ v.quoted
  | .null, _ => by decide
  | .bool b, _ => by cases b <;> decide
  | .int n, _ => fun h => Number.dollar_not_mem_integer n (Text.dollar_mem_ofString.mp h)
  | .double x, _ => fun h => Number.dollar_not_mem_double x (Text.dollar_mem_ofString.mp h)
  | .string _, h => Text.dollar_not_mem_quoted (isDollarFree_string.mp h)
  | .list items, h => by
    rw [isDollarFree] at h
    have hitems := Text.not_mem_join (s := ", ") (by decide)
      (dollar_not_mem_quotedItems h)
    rw [quoted]
    exact List.not_mem_append (List.not_mem_append (by decide) hitems) (by decide)
  | .map entries, h => by
    rw [isDollarFree] at h
    have hentries := Text.not_mem_join (s := ", ") (by decide)
      (dollar_not_mem_quotedEntries h)
    rw [quoted]
    exact List.not_mem_append (List.not_mem_append (by decide) hentries) (by decide)

theorem dollar_not_mem_quotedItems : ∀ {items : List Value}, areDollarFree items = true →
    ∀ t ∈ quotedItems items, dollar ∉ t
  | [], _ => by simp [quotedItems]
  | v :: rest, h => by
    rw [areDollarFree, Bool.and_eq_true] at h
    rw [quotedItems, List.forall_mem_cons]
    exact ⟨dollar_not_mem_quoted h.1, dollar_not_mem_quotedItems h.2⟩

theorem dollar_not_mem_quotedEntries : ∀ {entries : List (Text × Value)},
    entriesAreDollarFree entries = true → ∀ t ∈ quotedEntries entries, dollar ∉ t
  | [], _ => by simp [quotedEntries]
  | (name, v) :: rest, h => by
    rw [entriesAreDollarFree, Bool.and_eq_true, Bool.and_eq_true] at h
    have hname : dollar ∉ name := by simpa using h.1.1
    rw [quotedEntries, List.forall_mem_cons]
    exact ⟨List.not_mem_append
      (List.not_mem_append (Text.dollar_not_mem_quoted hname) (by decide))
      (dollar_not_mem_quoted h.1.2), dollar_not_mem_quotedEntries h.2⟩

end

mutual

/-- Without a dollar sign in a value there is none in its text. -/
theorem dollar_not_mem_text : ∀ {v : Value}, v.isDollarFree = true → dollar ∉ v.text
  | .null, _ => by decide
  | .bool b, _ => by cases b <;> decide
  | .int n, _ => fun h => Number.dollar_not_mem_integer n (Text.dollar_mem_ofString.mp h)
  | .double x, _ => by
    rw [text]
    cases x.whole? with
    | some n => exact fun h => Number.dollar_not_mem_integer n (Text.dollar_mem_ofString.mp h)
    | none => exact fun h => Number.dollar_not_mem_double x (Text.dollar_mem_ofString.mp h)
  | .string _, h => isDollarFree_string.mp h
  | .list items, h => by
    rw [isDollarFree] at h
    rw [text]
    exact Text.not_mem_join (by decide) (dollar_not_mem_textItems h)
  | .map _, h => dollar_not_mem_quoted h

theorem dollar_not_mem_textItems : ∀ {items : List Value}, areDollarFree items = true →
    ∀ t ∈ textItems items, dollar ∉ t
  | [], _ => by simp [textItems]
  | v :: rest, h => by
    rw [areDollarFree, Bool.and_eq_true] at h
    rw [textItems, List.forall_mem_cons]
    exact ⟨dollar_not_mem_text h.1, dollar_not_mem_textItems h.2⟩

end

end Value

end CloudTemplate
