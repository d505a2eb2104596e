import CloudTemplate.Number.Text

/-!
# UTF-8

Reading bytes as UTF-8 text.  A character begins with a byte that fixes how many continuation
bytes follow and which values the first of them may take; no character has two spellings, none is a
surrogate and none lies above U+10FFFF.  A failure names the bytes of the character in which it
arises, up to the one that does not fit.

Text files may end their lines in three ways; `unifyLineEnds` leaves only the line feed.
-/

namespace CloudTemplate.Text.Utf8

/-- Why bytes are not UTF-8. -/
inductive Reason where
  | invalidStart
  | invalidContinuation
  | unexpectedEnd
  deriving DecidableEq, Repr

/-- A failure: the first byte of the character, its position, and how many bytes were taken to
belong to the character. -/
structure Failure where
  byte : UInt8
  position : Nat
  length : Nat
  reason : Reason
  deriving DecidableEq, Repr

/-- What a first byte announces: its share of the code point, and the range for each of the bytes
that follow. -/
structure Lead where
  bits : Nat
  followers : List (Nat × Nat)

/-- The range of a continuation byte. -/
def anyContinuation : Nat × Nat := (0x80, 0xBF)

/-- What the byte announces, if a character may begin with it. -/
def lead? (byte : UInt8) : Option Lead :=
  let b := byte.toNat
  if b < 0x80 then some ⟨b, []⟩
  else if b < 0xC2 then none
  else if b < 0xE0 then some ⟨b - 0xC0, [anyContinuation]⟩
  else if b < 0xF0 then
    let first := if b = 0xE0 then (0xA0, 0xBF) else if b = 0xED then (0x80, 0x9F)
      else anyContinuation
    some ⟨b - 0xE0, [first, anyContinuation]⟩
  else if b < 0xF5 then
    let first := if b = 0xF0 then (0x90, 0xBF) else if b = 0xF4 then (0x80, 0x8F)
      else anyContinuation
    some ⟨b - 0xF0, [first, anyContinuation, anyContinuation]⟩
  else none

/-- Read the continuation bytes: the code point, or the reason and the number of bytes that did
fit. -/
def continuation (bits : Nat) : List (Nat × Nat) → List UInt8 → Except (Reason × Nat) Nat
  | [], _ => .ok bits
  | _ :: _, [] => .error (.unexpectedEnd, 0)
  | (low, high) :: ranges, byte :: rest =>
    if low ≤ byte.toNat ∧ byte.toNat ≤ high then
      match continuation (bits * 64 + byte.toNat % 64) ranges rest with
      | .ok point => .ok point
      | .error (reason, fitting) => .error (reason, fitting + 1)
    else .error (.invalidContinuation, 0)

/-- Read bytes that stand at the given position. -/
def decodeFrom (position : Nat) : List UInt8 → Except Failure (List Char)
  | [] => .ok []
  | byte :: rest =>
    match lead? byte with
    | none => .error ⟨byte, position, 1, .invalidStart⟩
    | some lead =>
      match continuation lead.bits lead.followers rest with
      | .error (reason, fitting) => .error ⟨byte, position, fitting + 1, reason⟩
      | .ok point => do
        let followers := lead.followers.length
        let cs ← decodeFrom (position + 1 + followers) (rest.drop followers)
        return Char.ofNat point :: cs
termination_by bytes => bytes.length
decreasing_by all_goals simp only [List.length_cons, List.length_drop]; omega

/-- Read bytes as UTF-8. -/
def decode (bytes : List UInt8) : Except Failure (List Char) :=
  decodeFrom 0 bytes

/-- Read bytes as UTF-8 with a replacement character for every failure. -/
def decodeOrReplace : List UInt8 → List Char
  | [] => []
  | byte :: rest =>
    match lead? byte with
    | none => '\uFFFD' :: decodeOrReplace rest
    | some lead =>
      match continuation lead.bits lead.followers rest with
      | .error (_, fitting) => '\uFFFD' :: decodeOrReplace (rest.drop fitting)
      | .ok point => Char.ofNat point :: decodeOrReplace (rest.drop lead.followers.length)
termination_by bytes => bytes.length
decreasing_by all_goals simp only [List.length_cons, List.length_drop]; omega

/-- The reason in words. -/
def Reason.message : Reason → String
  | .invalidStart => "invalid start byte"
  | .invalidContinuation => "invalid continuation byte"
  | .unexpectedEnd => "unexpected end of data"

/-- The failure in words. -/
def Failure.message (failure : Failure) : String :=
  let place :=
    if failure.length = 1 then
      "byte 0x" ++ Number.hexadecimal 2 failure.byte.toNat ++ " in position "
        ++ Number.natural failure.position
    else
      "bytes in position " ++ Number.natural failure.position ++ "-"
        ++ Number.natural (failure.position + failure.length - 1)
  "'utf-8' codec can't decode " ++ place ++ ": " ++ failure.reason.message

/-- Every line ends in a line feed: a carriage return becomes one, together with a line feed that
follows it. -/
def unifyLineEnds : List Char → List Char
  | [] => []
  | '\r' :: '\n' :: rest => '\n' :: unifyLineEnds rest
  | c :: rest => (if c = '\r' then '\n' else c) :: unifyLineEnds rest

end CloudTemplate.Text.Utf8
