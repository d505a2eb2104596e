import CloudTemplate.Number.Shortest

/-!
# The text of numbers

A double is written with the fewest digits that read back, at least one of them after the point.
The first digit's place decides the layout: from the fourth place after the point to the sixteenth
before it the number is written positionally, elsewhere with one digit before the point and an
exponent of at least two digits that always has a sign.
-/

namespace CloudTemplate.Number

/-- A natural number in decimal digits. -/
def natural (n : Nat) : String :=
  String.ofList (Nat.toDigits 10 n)

/-- An integer in decimal digits, with a sign if it is negative. -/
def integer : Int → String
  | .ofNat n => natural n
  | .negSucc n => "-" ++ natural (n + 1)

/-- A natural number in lower-case hexadecimal, filled with zeros up to `width` digits. -/
def hexadecimal (width n : Nat) : String :=
  let digits := Nat.toDigits 16 n
  String.ofList (List.replicate (width - digits.length) '0' ++ digits)

/-- The spellings that depend on where a double is written. -/
structure DoubleStyle where
  nan : String
  infinity : String

/-- The spellings inside documents. -/
def DoubleStyle.document : DoubleStyle := ⟨"NaN", "Infinity"⟩

/-- The spellings inside running text. -/
def DoubleStyle.plain : DoubleStyle := ⟨"nan", "inf"⟩

/-- Whether a number with its point after `point` digits is written positionally. -/
def isPositional (point : Int) : Bool :=
  -4 < point ∧ point ≤ 16

/-- An exponent with its sign and at least two digits. -/
def exponent (e : Int) : String :=
  let digits := Nat.toDigits 10 e.natAbs
  (if e < 0 then "-" else "+") ++ String.ofList (List.replicate (2 - digits.length) '0' ++ digits)

/-- Significant digits with a point after `point` of them. -/
def layout (digits : List Char) (point : Int) : String :=
  if isPositional point then
    if point ≤ 0 then
      "0." ++ String.ofList (List.replicate (-point).toNat '0' ++ digits)
    else
      let whole := digits.take point.toNat
      let fraction := digits.drop point.toNat
      String.ofList (whole ++ List.replicate (point.toNat - whole.length) '0') ++ "."
        ++ (if fraction.isEmpty then "0" else String.ofList fraction)
  else
    let fraction := digits.drop 1
    String.ofList (digits.take 1)
      ++ (if fraction.isEmpty then "" else "." ++ String.ofList fraction)
      ++ "e" ++ exponent (point - 1)

/-- The text of a positive decimal: the zeros at its right end are not significant. -/
def decimal (d : Double.Decimal) : String :=
  let digits := Nat.toDigits 10 d.digits
  layout (digits.reverse.dropWhile (· = '0')).reverse (digits.length + d.exponent)

/-- The text of a double. -/
def double (style : DoubleStyle) (x : Double) : String :=
  let sign (negative : Bool) := if negative then "-" else ""
  match x.shape with
  | .nan => style.nan
  | .infinite negative => sign negative ++ style.infinity
  | .finite negative m q narrow =>
    sign negative ++ (if m = 0 then "0.0" else decimal (Double.shortest m q narrow))

end CloudTemplate.Number
