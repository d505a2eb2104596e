import CloudTemplate.Value

/-!
# The tokens of a document

A document is cut into tokens, each with its offset from the start of the text, counted in
characters.  Cutting never fails: a text or an integer that cannot be read is a token that says so,
and so is a character with which no token begins, because only the reader knows whether a fault
further left comes first.

A number is an optional minus, an integer without needless zeros, and then, each only if it is
complete, a fraction and an exponent.  Every scanner returns how many characters it took.
-/

namespace CloudTemplate.Json

/-- What can be wrong inside a quoted text. -/
inductive TextFault where
  | unterminated
  | controlCharacter
  | unknownEscape
  | unicodeEscape
  deriving DecidableEq, Repr

/-- A token of a document. -/
inductive Token where
  | openList
  | closeList
  | openMap
  | closeMap
  | comma
  | colon
  | scalar (v : Value)
  | text (t : Text)
  /-- A quoted text with a fault at the given offset. -/
  | brokenText (fault : TextFault) (offset : Nat)
  /-- An integer with more digits than are read. -/
  | longInteger (digits : Nat)
  | junk

/-- A token and the offset of its first character. -/
structure Lexeme where
  offset : Nat
  token : Token

/-! ### Quoted texts -/

/-- The value of a hexadecimal digit. -/
def hexDigit? (c : Char) : Option Nat :=
  if '0' ≤ c ∧ c ≤ '9' then some (c.toNat - '0'.toNat)
  else if 'a' ≤ c ∧ c ≤ 'f' then some (c.toNat - 'a'.toNat + 10)
  else if 'A' ≤ c ∧ c ≤ 'F' then some (c.toNat - 'A'.toNat + 10)
  else none

/-- The value of four hexadecimal digits. -/
def hexUnit? (a b c d : Char) : Option Nat := do
  return (((← hexDigit? a) * 16 + (← hexDigit? b)) * 16 + (← hexDigit? c)) * 16 + (← hexDigit? d)

/-- The character that a backslash and a letter stand for. -/
def escaped? : Char → Option Char
  | '"' => some '"'
  | '\\' => some '\\'
  | '/' => some '/'
  | 'b' => some '\x08'
  | 'f' => some '\x0c'
  | 'n' => some '\n'
  | 'r' => some '\r'
  | 't' => some '\t'
  | _ => none

/-- The first half of a pair of units above U+FFFF. -/
def isHighSurrogate (unit : Nat) : Bool := 0xD800 ≤ unit && unit < 0xDC00

/-- The second half of a pair of units above U+FFFF. -/
def isLowSurrogate (unit : Nat) : Bool := 0xDC00 ≤ unit && unit < 0xE000

/-- The character of a pair of units. -/
def charOfPair (high low : Nat) : Char :=
  Char.ofNat (0x10000 + (high - 0xD800) * 0x400 + (low - 0xDC00))

/-- Read a quoted text from behind its opening quote, which stands at `start`; `offset` is that of
the next character and `done` holds the text so far, last first.  The answer is the text and the
offset behind the closing quote.  A unit that is half of a pair without the other half stays a code
point of its own. -/
def scanText (start : Nat) :
    (offset : Nat) → (done : Text) → List Char → Except (TextFault × Nat) (Text × Nat)
  | _, _, [] => .error (.unterminated, start)
  | offset, done, '"' :: _ => .ok (done.reverse, offset + 1)
  | _, _, ['\\'] => .error (.unterminated, start)
  | offset, done, '\\' :: 'u' :: a :: b :: c :: d :: rest =>
    match rest, hexUnit? a b c d with
    | [], _ => .error (.unicodeEscape, offset + 1)
    | _, none => .error (.unicodeEscape, offset + 1)
    | '\\' :: 'u' :: e :: f :: g :: h :: behind, some high =>
      match isHighSurrogate high && !behind.isEmpty, hexUnit? e f g h with
      | true, some low =>
        if isLowSurrogate low then
          scanText start (offset + 12) (.char (charOfPair high low) :: done) behind
        else scanText start (offset + 6) (.ofNat high :: done)
          ('\\' :: 'u' :: e :: f :: g :: h :: behind)
      | _, _ => scanText start (offset + 6) (.ofNat high :: done)
          ('\\' :: 'u' :: e :: f :: g :: h :: behind)
    | rest, some unit => scanText start (offset + 6) (.ofNat unit :: done) rest
  | offset, _, '\\' :: 'u' :: _ => .error (.unicodeEscape, offset + 1)
  | offset, done, '\\' :: c :: rest =>
    match escaped? c with
    | some c => scanText start (offset + 2) (.char c :: done) rest
    | none => .error (.unknownEscape, offset)
  | offset, done, c :: rest =>
    if c.toNat < 0x20 then .error (.controlCharacter, offset)
    else scanText start (offset + 1) (.char c :: done) rest
termination_by _ _ cs => cs.length

/-! ### Numbers and words -/

/-- The longest integer that is read, in digits. -/
def integerLimit : Nat := 4300

/-- The number that decimal digits denote. -/
def ofDigits (digits : List Char) : Nat :=
  digits.foldl (fun n c => n * 10 + (c.toNat - '0'.toNat)) 0

/-- The digits of an integer without needless zeros. -/
def integerDigits (cs : List Char) : List Char :=
  match cs with
  | '0' :: _ => ['0']
  | _ => cs.takeWhile Char.isDigit

/-- The digits behind a point. -/
def fractionDigits : List Char → List Char
  | '.' :: rest => rest.takeWhile Char.isDigit
  | _ => []

/-- An exponent: how many characters it takes and its value. -/
def scanExponent : List Char → Nat × Int
  | e :: rest =>
    if e = 'e' ∨ e = 'E' then
      let (sign, rest) : List Char × List Char := match rest with
        | c :: more => if c = '+' ∨ c = '-' then ([c], more) else ([], rest)
        | [] => ([], [])
      match rest.takeWhile Char.isDigit with
      | [] => (0, 0)
      | digits =>
        let n : Int := ofDigits digits
        (1 + sign.length + digits.length, if sign = ['-'] then -n else n)
    else (0, 0)
  | [] => (0, 0)

/-- A number: how many characters it takes and its token. -/
def scanNumber (cs : List Char) : Option (Nat × Token) :=
  let negative := cs.head? = some '-'
  let sign := if negative then 1 else 0
  let whole := integerDigits (cs.drop sign)
  if whole.isEmpty then none
  else
    let behindWhole := cs.drop (sign + whole.length)
    let fraction := fractionDigits behindWhole
    let point := if fraction.isEmpty then 0 else 1
    let (exponentLength, exponent) := scanExponent (behindWhole.drop (point + fraction.length))
    let length := sign + whole.length + point + fraction.length + exponentLength
    if fraction.isEmpty ∧ exponentLength = 0 then
      if integerLimit < whole.length then some (length, .longInteger whole.length)
      else
        let n : Int := ofDigits whole
        some (length, .scalar (.int (if negative then -n else n)))
    else
      some (length, .scalar (.double
        (Double.ofDecimal negative (ofDigits (whole ++ fraction)) (exponent - fraction.length))))

/-- The words that stand for scalars. -/
def words : List (String × Value) :=
  [("null", .null), ("true", .bool true), ("false", .bool false), ("NaN", .double .nan),
    ("Infinity", .double (.infinity false)), ("-Infinity", .double (.infinity true))]

/-- A word: how many characters it takes and its token. -/
def scanWord (cs : List Char) : Option (Nat × Token) :=
  (words.find? fun word => word.1.toList.isPrefixOf cs).map
    fun word => (word.1.length, .scalar word.2)

/-! ### The whole text -/

/-- The token that is one character. -/
def punctuation? : Char → Option Token
  | '[' => some .openList
  | ']' => some .closeList
  | '\x7b' => some .openMap
  | '\x7d' => some .closeMap
  | ',' => some .comma
  | ':' => some .colon
  | _ => none

/-- Whether a character may stand between tokens. -/
def isSpace (c : Char) : Bool :=
  c = ' ' || c = '\t' || c = '\n' || c = '\r'

/-- The token that begins with a character, and how many characters it takes after that one. -/
def scanToken (offset : Nat) (c : Char) (rest : List Char) : Nat × Token :=
  if c = '"' then
    match scanText offset (offset + 1) [] rest with
    | .ok (s, stop) => (stop - (offset + 1), .text s)
    | .error (fault, place) => (rest.length, .brokenText fault place)
  else
    match punctuation? c with
    | some token => (0, token)
    | none =>
      match (scanWord (c :: rest)).or (scanNumber (c :: rest)) with
      | some (length, token) => (length - 1, token)
      | none => (0, .junk)

/-- The tokens of characters that begin at an offset. -/
def tokensFrom (offset : Nat) : List Char → List Lexeme
  | [] => []
  | c :: rest =>
    if isSpace c then tokensFrom (offset + 1) rest
    else
      let (length, token) := scanToken offset c rest
      ⟨offset, token⟩ :: tokensFrom (offset + 1 + length) (rest.drop length)
termination_by cs => cs.length
decreasing_by all_goals simp only [List.length_cons, List.length_drop]; omega

/-- The tokens of a text. -/
def tokens (cs : List Char) : List Lexeme :=
  tokensFrom 0 cs

end CloudTemplate.Json
