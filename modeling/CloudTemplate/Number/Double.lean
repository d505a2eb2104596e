/-!
# Double-precision numbers

A double is kept as its sixty-four bits.  `Double.shape` takes the bits apart into a sign and an
exact value `m · 2 ^ q`; `Double.ofDecimal` goes the other way, from a decimal `d · 10 ^ e` to the
nearest double, a tie going to the even significand and an overflow to infinity.  Both are exact
arithmetic on natural numbers.
-/

namespace CloudTemplate

/-- A double-precision number, by its bits. -/
structure Double where
  bits : UInt64
  deriving DecidableEq, Inhabited

namespace Double

/-- What the bits of a double stand for. -/
inductive Shape where
  | nan
  | infinite (negative : Bool)
  /-- The number `± significand · 2 ^ exponent`; a narrow one is closer to the double below it
  than to the double above. -/
  | finite (negative : Bool) (significand : Nat) (exponent : Int) (narrow : Bool)
  deriving DecidableEq

/-- Take the bits apart: a sign, eleven bits of exponent, fifty-two bits of significand. -/
def shape (x : Double) : Shape :=
  let n : Nat := x.bits.toNat
  let negative := decide (Nat.pow 2 63 ≤ n)
  let exponent : Nat := n / Nat.pow 2 52 % Nat.pow 2 11
  let fraction : Nat := n % Nat.pow 2 52
  if exponent = 2047 then
    if fraction = 0 then .infinite negative else .nan
  else if exponent = 0 then
    .finite negative fraction (-1074) false
  else
    .finite negative (Nat.pow 2 52 + fraction) ((exponent : Int) - 1075)
      (decide (fraction = 0 ∧ 1 < exponent))

/-- Not a number. -/
def nan : Double := ⟨0x7ff8000000000000⟩

/-- Infinity with a sign. -/
def infinity (negative : Bool) : Double :=
  ⟨if negative then 0xfff0000000000000 else 0x7ff0000000000000⟩

/-- The integer that the number is, if it is one. -/
def whole? (x : Double) : Option Int :=
  match x.shape with
  | .finite negative m q _ =>
    let signed (n : Nat) : Int := if negative then -n else n
    if 0 ≤ q then some (signed (m * Nat.pow 2 q.toNat))
    else if m % Nat.pow 2 (-q).toNat = 0 then some (signed (m / Nat.pow 2 (-q).toNat))
    else none
  | _ => none

/-- A quotient of natural numbers to the nearest integer, a tie going to the even one. -/
def roundHalfEven (num den : Nat) : Nat :=
  let floor := num / den
  let twice := 2 * (num % den)
  if twice < den ∨ (twice = den ∧ floor % 2 = 0) then floor else floor + 1

/-- The bits of the double nearest to `num / den`, both positive, without a sign. -/
def nearest (num den : Nat) : Nat :=
  -- The quotient lies strictly between `2 ^ (scale - 1)` and `2 ^ (scale + 1)`.
  let scale : Int := (num.log2 : Int) - den.log2
  let scaled (q : Int) : Nat × Nat := (num * Nat.pow 2 (-q).toNat, den * Nat.pow 2 q.toNat)
  let guess : Int := max (scale - 53) (-1074)
  let (n, d) := scaled guess
  let q := if n / d < Nat.pow 2 53 then guess else guess + 1
  let (n, d) := scaled q
  let m := roundHalfEven n d
  if m < Nat.pow 2 52 then m
  else
    let field := (q + 1075).toNat
    min (field * Nat.pow 2 52 + (m - Nat.pow 2 52)) (2047 * Nat.pow 2 52)

/-- The double nearest to `± digits · 10 ^ exponent`. -/
def ofDecimal (negative : Bool) (digits : Nat) (exponent : Int) : Double :=
  let length : Int := (Nat.toDigits 10 digits).length
  let magnitude : Nat :=
    if digits = 0 ∨ length + exponent < -330 then 0
    else if 310 < length + exponent then 2047 * Nat.pow 2 52
    else nearest (digits * Nat.pow 10 exponent.toNat) (Nat.pow 10 (-exponent).toNat)
  ⟨UInt64.ofNat (if negative then Nat.pow 2 63 + magnitude else magnitude)⟩

end Double

end CloudTemplate
