import CloudTemplate.Text.Alphanumeric
import CloudTemplate.Text.Split

/-!
# Redaction

Messages of the cloud are passed on without resource names and account numbers.

A resource name is `arn:aws`, letters and hyphens, a colon, letters, digits and hyphens, a colon,
and then at least one character up to the next blank; it becomes `arn:***`.  An account number is a
run of exactly twelve digits between two word boundaries; it becomes `***`.  Resource names are
replaced first, each kind from left to right.
-/

namespace CloudTemplate.Cloud.Redaction

/-- Whether a code point belongs to words. -/
def isWordPoint (c : CodePoint) : Bool :=
  c = '_' || CharacterSet.alphanumeric.contains c

/-- Whether a code point is a letter of ASCII or a hyphen. -/
def isLetterOrHyphen : CodePoint → Bool
  | .char c => ('a' ≤ c && c ≤ 'z') || ('A' ≤ c && c ≤ 'Z') || c = '-'
  | .surrogate _ => false

/-- Whether a code point is a digit of ASCII. -/
def isDigit : CodePoint → Bool
  | .char c => c.isDigit
  | .surrogate _ => false

/-- What resource names begin with. -/
def nameMark : Text := "arn:aws"

/-- What takes the place of a resource name. -/
def hiddenName : Text := "arn:***"

/-- What takes the place of an account number. -/
def hiddenAccount : Text := "***"

/-- The length of the resource name with which a text begins. -/
def resourceNameLength? (t : Text) : Option Nat :=
  if !Text.startsWith nameMark t then none
  else
    let partition := (t.drop nameMark.length).takeWhile isLetterOrHyphen
    let behindPartition := t.drop (nameMark.length + partition.length)
    let service := (behindPartition.drop 1).takeWhile fun c => isLetterOrHyphen c || isDigit c
    let behindService := behindPartition.drop (1 + service.length)
    let rest := (behindService.drop 1).takeWhile fun c => !CharacterSet.blank.contains c
    if behindPartition.head? = some ':' && behindService.head? = some ':' && !rest.isEmpty then
      some (nameMark.length + partition.length + 1 + service.length + 1 + rest.length)
    else none

/-- A text with every resource name replaced. -/
def redactNames (t : Text) : Text :=
  match t with
  | [] => []
  | c :: rest =>
    match resourceNameLength? t with
    | some length => hiddenName ++ redactNames (rest.drop (length - 1))
    | none => c :: redactNames rest
termination_by t.length
decreasing_by all_goals simp only [List.length_cons, List.length_drop]; omega

/-- The number of digits in an account number. -/
def accountLength : Nat := 12

/-- Whether a text begins with an account number, behind a code point that belongs to a word or
not. -/
def beginsAccount (behindWord : Bool) (t : Text) : Bool :=
  let digits := t.take accountLength
  !behindWord && digits.length = accountLength
    && digits.all CharacterSet.decimalDigit.contains
    && !((t.drop accountLength).head?.any isWordPoint)

/-- A text with every account number replaced, behind a code point that belongs to a word or
not. -/
def redactAccounts (behindWord : Bool) (t : Text) : Text :=
  match t with
  | [] => []
  | c :: rest =>
    if beginsAccount behindWord t then
      hiddenAccount ++ redactAccounts true (rest.drop (accountLength - 1))
    else c :: redactAccounts (isWordPoint c) rest
termination_by t.length
decreasing_by all_goals simp only [List.length_cons, List.length_drop]; omega

/-- A message without resource names and account numbers. -/
def redact (message : Text) : Text :=
  redactAccounts false (redactNames message)

end CloudTemplate.Cloud.Redaction
