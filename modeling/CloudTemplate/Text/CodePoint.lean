/-!
# Code points

A code point is a character or a surrogate.  Surrogates come in pairs that stand for one character;
documents may hold one of them alone, and then it is a code point in its own right.

Code points are ordered by their values.  `CodePoint.value_injective` says that the value determines
the code point, so the order is linear.
-/

namespace CloudTemplate

/-- A unit of text. -/
inductive CodePoint where
  | char (c : Char)
  /-- A surrogate, by its distance from the first one. -/
  | surrogate (n : Fin 0x800)
  deriving DecidableEq, Repr, Inhabited

namespace CodePoint

/-- The number of a code point. -/
def value : CodePoint → Nat
  | char c => c.toNat
  | surrogate n => 0xD800 + n

/-- The code point with a number; numbers beyond the last one give the null character. -/
def ofNat (n : Nat) : CodePoint :=
  if h : 0xD800 ≤ n ∧ n < 0xE000 then surrogate ⟨n - 0xD800, by omega⟩ else char (Char.ofNat n)

/-- The character, if the code point is one. -/
def char? : CodePoint → Option Char
  | char c => some c
  | surrogate _ => none

/-- No character has the number of a surrogate. -/
theorem toNat_ne_surrogate (c : Char) (n : Fin 0x800) : c.toNat ≠ 0xD800 + n := by
  have hc : c.toNat < 0xD800 ∨ 0xDFFF < c.toNat ∧ c.toNat < 0x110000 := c.valid
  have := n.isLt
  omega

/-- The value determines the code point. -/
theorem value_injective {a b : CodePoint} (h : a.value = b.value) : a = b := by
  cases a with
  | char c =>
    cases b with
    | char d => exact congrArg char (Char.toNat_inj.mp h)
    | surrogate n => exact absurd h (toNat_ne_surrogate c n)
  | surrogate m =>
    cases b with
    | char d => exact absurd h.symm (toNat_ne_surrogate d m)
    | surrogate n => exact congrArg surrogate (Fin.ext (Nat.add_left_cancel h))

/-- Code points are ordered by their values. -/
instance : LT CodePoint := ⟨fun a b => a.value < b.value⟩

theorem lt_def {a b : CodePoint} : a < b ↔ a.value < b.value := Iff.rfl

instance : DecidableLT CodePoint := fun a b =>
  inferInstanceAs (Decidable (a.value < b.value))

instance : Trans (α := CodePoint) (· < ·) (· < ·) (· < ·) where
  trans hab hbc := Nat.lt_trans (lt_def.mp hab) (lt_def.mp hbc)

instance : Std.Irrefl (α := CodePoint) (· < ·) where
  irrefl _ h := Nat.lt_irrefl _ (lt_def.mp h)

instance : Std.Asymm (α := CodePoint) (· < ·) where
  asymm _ _ hab hba := Nat.lt_asymm (lt_def.mp hab) (lt_def.mp hba)

instance : Std.Trichotomous (α := CodePoint) (· < ·) where
  trichotomous a b hab hba := by
    rw [lt_def] at hab hba
    exact value_injective (by omega)

instance : Coe Char CodePoint := ⟨char⟩

end CodePoint

end CloudTemplate
