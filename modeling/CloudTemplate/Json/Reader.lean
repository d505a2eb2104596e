import CloudTemplate.Json.Token
import CloudTemplate.Number.Text

/-!
# Reading documents

The reader goes once through the tokens.  It keeps the lists and maps that are still open, innermost
first, and what is due next; each token either fits what is due or is the first fault of the text.
A name that a map holds twice keeps its first place and its last value.
-/

namespace CloudTemplate.Json

/-- What keeps a text from being a document. -/
inductive Problem where
  | noValue
  | noName
  | noColon
  | noComma
  | text (fault : TextFault)
  | extraData
  | byteOrderMark
  deriving DecidableEq, Repr

/-- Why a text cannot be read. -/
inductive Failure where
  /-- The text is no document from the given offset on. -/
  | malformed (problem : Problem) (offset : Nat)
  /-- The text holds an integer that is too long. -/
  | longInteger (digits : Nat)
  deriving DecidableEq, Repr

/-- A list or map that is still open, its finished part and, for a map, the name whose value is
due.  The items of a list are kept last first. -/
inductive Frame where
  | list (done : List Value)
  | map (done : Fields Value) (name : Text)

/-- What is due next. -/
inductive Due where
  /-- A value: the whole document, or the next one of the innermost frame. -/
  | value
  /-- The first item of a list, or its end. -/
  | firstItem
  /-- A name of a map; its end too, if no entry has been read. -/
  | name (done : Fields Value)
  /-- The colon behind a name. -/
  | colon (done : Fields Value) (name : Text)
  /-- A comma in a list, or its end. -/
  | moreItems (done : List Value)
  /-- A comma in a map, or its end. -/
  | moreEntries (done : Fields Value)
  /-- Nothing: the document is complete. -/
  | nothing (v : Value)

/-- The state of the reader: the open frames below the innermost list or map, and what is due. -/
structure State where
  frames : List Frame
  due : Due

/-- Put a finished value where it belongs. -/
def State.place : List Frame → Value → State
  | [], v => ⟨[], .nothing v⟩
  | .list done :: frames, v => ⟨frames, .moreItems (v :: done)⟩
  | .map done name :: frames, v => ⟨frames, .moreEntries (done.set name v)⟩

/-- Read the token where a value is due. -/
def State.readValue (frames : List Frame) (lexeme : Lexeme) : Except Failure State :=
  match lexeme.token with
  | .scalar v => .ok (place frames v)
  | .text s => .ok (place frames (.string s))
  | .openList => .ok ⟨frames, .firstItem⟩
  | .openMap => .ok ⟨frames, .name []⟩
  | .brokenText fault offset => .error (.malformed (.text fault) offset)
  | .longInteger digits => .error (.longInteger digits)
  | _ => .error (.malformed .noValue lexeme.offset)

/-- Read one token. -/
def State.read (state : State) (lexeme : Lexeme) : Except Failure State :=
  let fault (problem : Problem) : Except Failure State :=
    .error (.malformed problem lexeme.offset)
  match state.due, lexeme.token with
  | .value, _ => readValue state.frames lexeme
  | .firstItem, .closeList => .ok (place state.frames (.list []))
  | .firstItem, _ => readValue (.list [] :: state.frames) lexeme
  | .name done, .text name => .ok ⟨state.frames, .colon done name⟩
  | .name _, .brokenText f offset => .error (.malformed (.text f) offset)
  | .name [], .closeMap => .ok (place state.frames (.map []))
  | .name _, _ => fault .noName
  | .colon done name, .colon => .ok ⟨.map done name :: state.frames, .value⟩
  | .colon _ _, _ => fault .noColon
  | .moreItems done, .comma => .ok ⟨.list done :: state.frames, .value⟩
  | .moreItems done, .closeList => .ok (place state.frames (.list done.reverse))
  | .moreItems _, _ => fault .noComma
  | .moreEntries done, .comma => .ok ⟨state.frames, .name done⟩
  | .moreEntries done, .closeMap => .ok (place state.frames (.map done))
  | .moreEntries _, _ => fault .noComma
  | .nothing _, _ => fault .extraData

/-- The document, if the text may end here. -/
def State.finish (state : State) (length : Nat) : Except Failure Value :=
  match state.due with
  | .nothing v => .ok v
  | .value | .firstItem => .error (.malformed .noValue length)
  | .name _ => .error (.malformed .noName length)
  | .colon _ _ => .error (.malformed .noColon length)
  | .moreItems _ | .moreEntries _ => .error (.malformed .noComma length)

/-- The document that a text holds. -/
def read (cs : List Char) : Except Failure Value :=
  if cs.head? = some '\uFEFF' then .error (.malformed .byteOrderMark 0)
  else do
    let state ← (tokens cs).foldlM State.read ⟨[], .value⟩
    state.finish cs.length

/-! ### Failures in words -/

/-- The problem in words. -/
def Problem.message : Problem → String
  | .noValue => "Expecting value"
  | .noName => "Expecting property name enclosed in double quotes"
  | .noColon => "Expecting ':' delimiter"
  | .noComma => "Expecting ',' delimiter"
  | .text .unterminated => "Unterminated string starting at"
  | .text .controlCharacter => "Invalid control character at"
  | .text .unknownEscape => "Invalid \\escape"
  | .text .unicodeEscape => "Invalid \\uXXXX escape"
  | .extraData => "Extra data"
  | .byteOrderMark => "Unexpected UTF-8 BOM (decode using utf-8-sig)"

/-- The line and the column of an offset, both counted from one. -/
def lineAndColumn (cs : List Char) (offset : Nat) : Nat × Nat :=
  let before := cs.take offset
  (before.count '\n' + 1, (before.reverse.takeWhile (· ≠ '\n')).length + 1)

/-- A place in a text in words. -/
def place (cs : List Char) (offset : Nat) : String :=
  let (line, column) := lineAndColumn cs offset
  "line " ++ Number.natural line ++ " column " ++ Number.natural column
    ++ " (char " ++ Number.natural offset ++ ")"

/-- The complaint about an integer that is too long. -/
def longIntegerMessage (digits : Nat) : String :=
  "Exceeds the limit (" ++ Number.natural integerLimit
    ++ " digits) for integer string conversion: value has " ++ Number.natural digits
    ++ " digits; use sys.set_int_max_str_digits() to increase the limit"

end CloudTemplate.Json
