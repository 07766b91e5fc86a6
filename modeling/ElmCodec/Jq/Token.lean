import ElmCodec.Text.Digits

/-!
# Tokens of filters

A filter text is cut into the longest tokens that fit. An operator is one
character with the equals signs and slashes after it, so a minus that follows
a pipe is a token of its own. Blanks and comments separate tokens; a comment
ends with its line, unless an odd number of backslashes stands at the end of
that line. Brackets have to match. A string with filters in it is cut as well:
its pieces and its filters, in parentheses, stand between two quotes.
-/

namespace ElmCodec.Jq

inductive Token
  | mark (c : Char)
  | operator (text : String)
  | name (text : String)
  | binding (text : String)
  | format (text : String)
  /-- A dot and a member name. -/
  | field (text : String)
  | number (text : String)
  | string (text : String)
  /-- The start or the end of a string with filters in it. -/
  | quote
  deriving DecidableEq, Repr

namespace Token

/-- The characters with the property White_Space of Unicode. -/
def isBlank (c : Char) : Bool :=
  let code := c.toNat
  (0x09 ≤ code && code ≤ 0x0D) || code = 0x20 || code = 0x85 || code = 0xA0 || code = 0x1680 ||
    (0x2000 ≤ code && code ≤ 0x200A) || code = 0x2028 || code = 0x2029 || code = 0x202F ||
    code = 0x205F || code = 0x3000

def isNameStart (c : Char) : Bool := c.isAlpha || c = '_'

def isNamePart (c : Char) : Bool := c.isAlphanum || c = '_'

def isOperatorStart (c : Char) : Bool :=
  ['|', '=', '!', '<', '>', '+', '-', '*', '/', '%'].contains c

def isOperatorPart (c : Char) : Bool := c = '=' || c = '/'

-- ---------------------------------------------------------------------------
-- Blanks
-- ---------------------------------------------------------------------------

/-- Whether a line ends in an odd number of backslashes. -/
def isContinued (line : List Char) : Bool :=
  let line := match line.reverse with
    | '\r' :: rest => rest
    | rest => rest
  (line.takeWhile (· = '\\')).length % 2 = 1

/-- What follows a comment; `fuel` bounds the number of its lines. -/
def skipComment : (fuel : Nat) → List Char → List Char
  | 0, chars => chars
  | fuel + 1, chars =>
    let rest := (chars.dropWhile (· ≠ '\n')).drop 1
    if isContinued (chars.takeWhile (· ≠ '\n')) then skipComment fuel rest else rest

/-- What follows blanks and comments; `fuel` bounds the number of comments. -/
def skipBlanks : (fuel : Nat) → List Char → List Char
  | 0, chars => chars
  | fuel + 1, chars =>
    match chars.dropWhile isBlank with
    | '#' :: rest => skipBlanks fuel (skipComment rest.length rest)
    | rest => rest

-- ---------------------------------------------------------------------------
-- Names and numbers
-- ---------------------------------------------------------------------------

def spanName (chars : List Char) : List Char × List Char :=
  (chars.takeWhile isNamePart, chars.dropWhile isNamePart)

def spanName? : List Char → Option (List Char × List Char)
  | c :: rest => if isNameStart c then some (spanName (c :: rest)) else none
  | [] => none

def spanQualified (chars : List Char) : Option (String × List Char) :=
  match spanName chars with
  | (letters, ':' :: ':' :: rest) => do
    let (member, rest) ← spanName? rest
    return (String.ofList (letters ++ ':' :: ':' :: member), rest)
  | (letters, rest) => some (String.ofList letters, rest)

def spanDigits? (chars : List Char) : Option (List Char × List Char) :=
  match chars.takeWhile Char.isDigit with
  | [] => none
  | digits => some (digits, chars.dropWhile Char.isDigit)

def spanFraction : List Char → Option (List Char × List Char)
  | '.' :: rest => do
    let (digits, rest) ← spanDigits? rest
    return ('.' :: digits, rest)
  | rest => some ([], rest)

def spanExponent (chars : List Char) : Option (List Char × List Char) :=
  match chars with
  | e :: rest =>
    if e = 'e' ∨ e = 'E' then
      match rest with
      | '+' :: rest => (spanDigits? rest).map fun (digits, rest) => (e :: '+' :: digits, rest)
      | '-' :: rest => (spanDigits? rest).map fun (digits, rest) => (e :: '-' :: digits, rest)
      | rest => (spanDigits? rest).map fun (digits, rest) => (e :: digits, rest)
    else some ([], chars)
  | [] => some ([], [])

def spanNumber (chars : List Char) : Option (String × List Char) := do
  let whole := chars.takeWhile Char.isDigit
  let (fraction, rest) ← spanFraction (chars.dropWhile Char.isDigit)
  let (power, rest) ← spanExponent rest
  return (String.ofList (whole ++ fraction ++ power), rest)

-- ---------------------------------------------------------------------------
-- Strings
-- ---------------------------------------------------------------------------

def hexValue? (c : Char) : Option Nat :=
  if c.isDigit then some (digitValue c)
  else if 'a' ≤ c ∧ c ≤ 'f' then some (c.toNat - 'a'.toNat + 10)
  else if 'A' ≤ c ∧ c ≤ 'F' then some (c.toNat - 'A'.toNat + 10)
  else none

def charOf? (code : Nat) : Option Char :=
  if 0xD800 ≤ code ∧ code ≤ 0xDFFF then none else some (Char.ofNat code)

def escaped? : Char → Option Char
  | '"' => some '"'
  | '\\' => some '\\'
  | '/' => some '/'
  | 'b' => some '\x08'
  | 'f' => some '\x0c'
  | 'n' => some '\n'
  | 'r' => some '\r'
  | 't' => some '\t'
  | _ => none

inductive Ending
  | quote
  | filter
  deriving DecidableEq, Repr

/-- Characters up to the end of a string or to a filter in it, and what follows. -/
def spanPiece : List Char → Option (List Char × Ending × List Char)
  | [] => none
  | '"' :: rest => some ([], .quote, rest)
  | '\\' :: '(' :: rest => some ([], .filter, rest)
  | '\\' :: 'u' :: a :: b :: c :: d :: rest => do
    let code := ((← hexValue? a) * 16 + (← hexValue? b)) * 256 + (← hexValue? c) * 16 + (← hexValue? d)
    let (chars, ending, rest) ← spanPiece rest
    return ((← charOf? code) :: chars, ending, rest)
  | '\\' :: c :: rest => do
    let (chars, ending, rest) ← spanPiece rest
    return ((← escaped? c) :: chars, ending, rest)
  | c :: rest => do
    let (chars, ending, rest) ← spanPiece rest
    return (c :: chars, ending, rest)

-- ---------------------------------------------------------------------------
-- Texts
-- ---------------------------------------------------------------------------

inductive Closing
  | mark (c : Char)
  /-- The parenthesis after a filter in a string. -/
  | filter
  deriving DecidableEq, Repr

def closing? : Char → Option Char
  | '(' => some ')'
  | '[' => some ']'
  | '{' => some '}'
  | _ => none

def plain? (chars : List Char) : Option (Token × List Char) :=
  match chars with
  | [] => none
  | '.' :: '.' :: rest => some (operator "..", rest)
  | '.' :: rest =>
    match spanName? rest with
    | some (letters, rest) => some (field (String.ofList letters), rest)
    | none => some (mark '.', rest)
  | '$' :: rest =>
    (spanName? rest).map fun (letters, rest) => (binding (String.ofList ('$' :: letters)), rest)
  | '@' :: rest =>
    (spanName? rest).map fun (letters, rest) => (format (String.ofList ('@' :: letters)), rest)
  | c :: rest =>
    if c.isDigit then (spanNumber chars).map fun (text, rest) => (number text, rest)
    else if isNameStart c then
      (spanQualified chars).map fun (text, rest) => (name text, rest)
    else if isOperatorStart c then
      some (operator (String.ofList (c :: rest.takeWhile isOperatorPart)),
        rest.dropWhile isOperatorPart)
    else if [',', ':', ';', '?'].contains c then some (mark c, rest)
    else none

mutual

/-- All tokens of a text, with these brackets open; `fuel` bounds the number of characters. -/
def scan : (fuel : Nat) → List Closing → List Char → Option (List Token)
  | 0, _, _ => none
  | fuel + 1, awaited, chars =>
    match skipBlanks chars.length chars with
    | [] => if awaited.isEmpty then some [] else none
    | '"' :: rest => do
      let (text, ending, rest) ← spanPiece rest
      match ending with
      | .quote => return string (String.ofList text) :: (← scan fuel awaited rest)
      | .filter =>
        return quote :: string (String.ofList text) :: mark '(' ::
          (← scan fuel (.filter :: awaited) rest)
    | c :: rest =>
      match closing? c, awaited with
      | some close, awaited => return mark c :: (← scan fuel (.mark close :: awaited) rest)
      | none, .mark close :: outer =>
        if c = close then return mark c :: (← scan fuel outer rest)
        else scanPlain fuel awaited (c :: rest)
      | none, .filter :: outer =>
        if c = ')' then return mark c :: (← scanPiece fuel outer rest)
        else scanPlain fuel awaited (c :: rest)
      | none, [] => scanPlain fuel awaited (c :: rest)

def scanPlain : (fuel : Nat) → List Closing → List Char → Option (List Token)
  | 0, _, _ => none
  | fuel + 1, awaited, chars => do
    let (token, rest) ← plain? chars
    return token :: (← scan fuel awaited rest)

def scanPiece : (fuel : Nat) → List Closing → List Char → Option (List Token)
  | 0, _, _ => none
  | fuel + 1, awaited, chars => do
    let (text, ending, rest) ← spanPiece chars
    match ending with
    | .quote => return string (String.ofList text) :: quote :: (← scan fuel awaited rest)
    | .filter =>
      return string (String.ofList text) :: mark '(' :: (← scan fuel (.filter :: awaited) rest)

end

def ofText? (text : String) : Option (List Token) :=
  let chars := text.toList
  scan (2 * chars.length + 1) [] chars

end Token

end ElmCodec.Jq
