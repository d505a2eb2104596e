import CloudTemplate.Text.Utf8
import CloudTemplate.Value.Text

/-!
# Files

A path is a row of bytes.  It is written as text in UTF-8, and the surrogates from U+DC80 on stand
for single bytes that are no text; so two texts may be the same path.  A text with any other
surrogate, or with a null character, is no path at all.

`Files` is what a command sees of files: what a path leads to, and whether a file can be written
there.
-/

namespace CloudTemplate.Command

/-! ### Paths -/

/-- Why a text is no path. -/
inductive PathFault where
  | nullCharacter
  /-- From `start` up to `stop` there are surrogates, the first of which stands for no byte. -/
  | surrogates (first : CodePoint) (start stop : Nat)
  deriving DecidableEq, Repr

/-- The fault in words. -/
def PathFault.message : PathFault → Text
  | .nullCharacter => "embedded null byte"
  | .surrogates first start stop =>
    let place : Text :=
      if stop = start + 1 then
        " '\\u" ++ Number.hexadecimal 4 first.value ++ "' in position " ++ Number.natural start
      else "s in position " ++ Number.natural start ++ "-" ++ Number.natural (stop - 1)
    "'utf-8' codec can't encode character" ++ place ++ ": surrogates not allowed"

/-- A path. -/
abbrev Path := List UInt8

namespace Path

/-- The byte for which a surrogate stands. -/
def byte? (n : Fin 0x800) : Option UInt8 :=
  if 0x480 ≤ n.val ∧ n.val < 0x500 then some (UInt8.ofNat (n.val - 0x400)) else none

/-- Whether a code point is a surrogate. -/
def isSurrogate : CodePoint → Bool
  | .char _ => false
  | .surrogate _ => true

/-- The bytes for which the rest of a text stands, which begins at a position. -/
def bytesFrom (position : Nat) : Text → Except PathFault (List UInt8)
  | [] => .ok []
  | .char c :: rest => return String.utf8EncodeChar c ++ (← bytesFrom (position + 1) rest)
  | .surrogate n :: rest =>
    match byte? n with
    | some byte => return byte :: (← bytesFrom (position + 1) rest)
    | none =>
      let stop := position + 1 + (rest.takeWhile isSurrogate).length
      .error (.surrogates (.surrogate n) position stop)

/-- The path for which a text stands. -/
def ofText (t : Text) : Except PathFault Path := do
  let bytes ← bytesFrom 0 t
  if bytes.contains 0 then .error .nullCharacter else return bytes

/-- The path that is written as a string. -/
def ofString (s : String) : Path := s.toList.flatMap String.utf8EncodeChar

/-- The text of a path as messages show it: bytes that are no text become replacement
characters. -/
def shown (t : Text) : Text :=
  match bytesFrom 0 t with
  | .ok bytes => .ofChars (Text.Utf8.decodeOrReplace bytes)
  | .error _ => t

end Path

/-! ### What is found -/

/-- What a path leads to. -/
inductive Place where
  | nothing
  | directory
  | file (bytes : List UInt8)
  deriving DecidableEq, Inhabited

/-- Why a file cannot be written. -/
inductive FileFault where
  | noEntry
  | notDirectory
  | isDirectory
  | nameTooLong
  | noSpace
  deriving DecidableEq, Repr

/-- The fault in words.  When the path was found, it is not named. -/
def FileFault.message (path : Text) : FileFault → Text
  | .noEntry => "[Errno 2] No such file or directory: " ++ Text.quoted path
  | .notDirectory => "[Errno 20] Not a directory: " ++ Text.quoted path
  | .isDirectory => "[Errno 21] Is a directory: " ++ Text.quoted path
  | .nameTooLong => "[Errno 36] File name too long: " ++ Text.quoted path
  | .noSpace => "[Errno 28] No space left on device"

/-- The files that a command sees. -/
structure Files where
  lookUp : Path → Place
  writeFault? : Path → Option FileFault

end CloudTemplate.Command
