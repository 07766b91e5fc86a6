import ElmCodec.Json.Fault
import ElmCodec.Json.Members
import ElmCodec.Json.Value
import ElmCodec.Text.Digits

/-!
# Reading JSON

A reader takes the characters ahead and returns what it read with the rest, or
the fault that stopped it. Accepted are the documents of RFC 8259 with at most
127 nested lists and objects, whose escaped surrogates come in pairs and whose
numbers are finite as computed here. That arithmetic rounds more than once, so
some decimals near the largest double are refused although the double nearest
to them is finite.
-/

namespace ElmCodec.Json

def isBlank (c : Char) : Bool := c = ' ' || c = '\t' || c = '\n' || c = '\r'

def skipBlanks (text : List Char) : List Char := text.dropWhile isBlank

-- ---------------------------------------------------------------------------
-- Words
-- ---------------------------------------------------------------------------

def readWord (value : α) : List Char → List Char → Except Stop (α × List Char)
  | [], rest => .ok (value, rest)
  | _ :: _, [] => .error (.on .endInValue [])
  | w :: word, c :: rest =>
    if w = c then readWord value word rest else .error (.on .expectedWord (c :: rest))

-- ---------------------------------------------------------------------------
-- Numbers
-- ---------------------------------------------------------------------------

/-- Appends decimal digits to `value` while it stays within `limit`; returns those left over. -/
def absorb (limit : Nat) : Nat → List Char → Nat × List Char
  | value, [] => (value, [])
  | value, d :: digits =>
    let next := 10 * value + digitValue d
    if next ≤ limit then absorb limit next digits else (value, d :: digits)

/-- Significands are kept to 64 bits. -/
def maxSignificand : Nat := twoTo 64 - 1

def maxExponent : Nat := twoTo 31 - 1

def missingDigit (rest : List Char) : Stop :=
  .on (if rest.isEmpty then .endInValue else .invalidNumber) rest

def signed (negative : Bool) (x : Double) : Double := if negative then x.neg else x

/-- An integer of at most 64 bits; a negative zero is a double. -/
def ofInteger (negative : Bool) (magnitude : Nat) : Number :=
  if !negative then .integer magnitude
  else if magnitude = 0 ∨ twoTo 63 < magnitude then .double (Double.ofNat magnitude).neg
  else .integer (-(magnitude : Int))

def finishNumber (negative : Bool) (digits : Nat) (exponent : Int) (rest : List Char) :
    Except Stop (Number × List Char) :=
  match Double.ofDecimal? digits exponent with
  | some x => .ok (.double (signed negative x), rest)
  | none => .error (.before .numberOutOfRange rest)

/-- What follows `e`: a sign and digits. An exponent past 31 bits decides the value at once. -/
def readExponent (negative : Bool) (digits : Nat) (exponent : Int) (text : List Char) :
    Except Stop (Number × List Char) :=
  let (down, text) : Bool × List Char :=
    match text with
    | '+' :: rest => (false, rest)
    | '-' :: rest => (true, rest)
    | rest => (false, rest)
  let written := text.takeWhile Char.isDigit
  let rest := text.dropWhile Char.isDigit
  if written.isEmpty then .error (missingDigit rest)
  else
    let (power, excess) := absorb maxExponent 0 written
    if excess.isEmpty then
      finishNumber negative digits (exponent + (if down then -(power : Int) else power)) rest
    else if digits ≠ 0 ∧ !down then .error (.before .numberOutOfRange (excess.drop 1 ++ rest))
    else .ok (.double (signed negative .zero), rest)

/-- What follows the point: digits, then perhaps an exponent. Digits that do
not fit the significand are dropped. -/
def readFraction (negative : Bool) (digits : Nat) (exponent : Int) (text : List Char) :
    Except Stop (Number × List Char) :=
  let written := text.takeWhile Char.isDigit
  let rest := text.dropWhile Char.isDigit
  if written.isEmpty then .error (missingDigit rest)
  else
    let (digits, excess) := absorb maxSignificand digits written
    let exponent := exponent - ((written.length - excess.length : Nat) : Int)
    match rest with
    | 'e' :: rest => readExponent negative digits exponent rest
    | 'E' :: rest => readExponent negative digits exponent rest
    | rest => finishNumber negative digits exponent rest

/-- A number after its sign. Integer digits that do not fit the significand
raise the exponent. -/
def readNumber (negative : Bool) (text : List Char) : Except Stop (Number × List Char) :=
  let written := text.takeWhile Char.isDigit
  let rest := text.dropWhile Char.isDigit
  match written with
  | [] => .error (missingDigit rest)
  | '0' :: more :: others => .error (.on .invalidNumber (more :: others ++ rest))
  | written =>
    let (digits, excess) := absorb maxSignificand 0 written
    match rest with
    | '.' :: rest => readFraction negative digits excess.length rest
    | 'e' :: rest => readExponent negative digits excess.length rest
    | 'E' :: rest => readExponent negative digits excess.length rest
    | rest =>
      if excess.isEmpty then .ok (ofInteger negative digits, rest)
      else finishNumber negative digits excess.length rest

-- ---------------------------------------------------------------------------
-- Strings
-- ---------------------------------------------------------------------------

def hexValue? (c : Char) : Option Nat :=
  if c.isDigit then some (digitValue c)
  else if 'a' ≤ c ∧ c ≤ 'f' then some (c.toNat - 'a'.toNat + 10)
  else if 'A' ≤ c ∧ c ≤ 'F' then some (c.toNat - 'A'.toNat + 10)
  else none

/-- Four hexadecimal digits. Four bytes are taken before they are looked at. -/
def readHex (text : List Char) : Except Stop (Nat × List Char) :=
  if byteCount (text.take 4) < 4 then .error (.on .endInString [])
  else
    match text with
    | a :: b :: c :: d :: rest =>
      match hexValue? a, hexValue? b, hexValue? c, hexValue? d with
      | some a, some b, some c, some d => .ok (((a * 16 + b) * 16 + c) * 16 + d, rest)
      | _, _, _, _ => .error ⟨.invalidEscape, [], byteCount text - 4⟩
    | _ => .error ⟨.invalidEscape, [], byteCount text - 4⟩

def isHighSurrogate (unit : Nat) : Bool := 0xD800 ≤ unit && unit ≤ 0xDBFF

def isLowSurrogate (unit : Nat) : Bool := 0xDC00 ≤ unit && unit ≤ 0xDFFF

def ofSurrogates (high low : Nat) : Char :=
  Char.ofNat (0x10000 + (high - 0xD800) * 0x400 + (low - 0xDC00))

def readLowSurrogate (high : Nat) : List Char → Except Stop (Char × List Char)
  | [] => .error (.on .endInString [])
  | '\\' :: [] => .error (.on .endInString [])
  | '\\' :: 'u' :: rest => do
    let (low, rest) ← readHex rest
    if isLowSurrogate low then .ok (ofSurrogates high low, rest)
    else .error (.before .loneSurrogate rest)
  | '\\' :: rest => .error (.on .unfinishedSurrogatePair rest)
  | rest => .error (.on .unfinishedSurrogatePair rest)

def readEscape : List Char → Except Stop (Char × List Char)
  | [] => .error (.on .endInString [])
  | '"' :: rest => .ok ('"', rest)
  | '\\' :: rest => .ok ('\\', rest)
  | '/' :: rest => .ok ('/', rest)
  | 'b' :: rest => .ok ('\x08', rest)
  | 'f' :: rest => .ok ('\x0c', rest)
  | 'n' :: rest => .ok ('\n', rest)
  | 'r' :: rest => .ok ('\r', rest)
  | 't' :: rest => .ok ('\t', rest)
  | 'u' :: rest => do
    let (unit, rest) ← readHex rest
    if isLowSurrogate unit then .error (.before .loneSurrogate rest)
    else if isHighSurrogate unit then readLowSurrogate unit rest
    else .ok (Char.ofNat unit, rest)
  | rest => .error (.on .invalidEscape rest)

/-- Characters up to the closing quote; `fuel` bounds their number. -/
def readCharacters : (fuel : Nat) → List Char → Except Stop (List Char × List Char)
  | 0, _ => .error (.on .endInString [])
  | _ + 1, [] => .error (.on .endInString [])
  | _ + 1, '"' :: rest => .ok ([], rest)
  | fuel + 1, '\\' :: rest => do
    let (c, rest) ← readEscape rest
    let (text, rest) ← readCharacters fuel rest
    .ok (c :: text, rest)
  | fuel + 1, c :: rest =>
    if c < ' ' then .error (.on .controlCharacter (c :: rest))
    else do
      let (text, rest) ← readCharacters fuel rest
      .ok (c :: text, rest)

def readString (text : List Char) : Except Stop (String × List Char) := do
  let (chars, rest) ← readCharacters text.length text
  .ok (String.ofList chars, rest)

-- ---------------------------------------------------------------------------
-- Lists and objects
-- ---------------------------------------------------------------------------

def readItems (item : List Char → Except Stop (α × List Char)) :
    (fuel : Nat) → (index : Nat) → List Char → Except Stop (List α × List Char)
  | 0, _, _ => .error (.on .endInList [])
  | fuel + 1, index, text => do
    let (value, rest) ← (item text).mapError (Stop.under (.index index))
    match skipBlanks rest with
    | [] => .error (.on .endInList [])
    | ']' :: rest => .ok ([value], rest)
    | ',' :: rest =>
      match skipBlanks rest with
      | [] => .error (.on .endInValue [])
      | ']' :: rest => .error (.on .trailingComma (']' :: rest))
      | rest => do
        let (values, rest) ← readItems item fuel (index + 1) rest
        .ok (value :: values, rest)
    | rest => .error (.on .expectedListSeparator rest)

def readList (item : List Char → Except Stop (α × List Char)) (text : List Char) :
    Except Stop (List α × List Char) :=
  match skipBlanks text with
  | [] => .error (.on .endInList [])
  | ']' :: rest => .ok ([], rest)
  | rest => readItems item rest.length 0 rest

def readColon (text : List Char) : Except Stop (List Char) :=
  match skipBlanks text with
  | [] => .error (.on .endInObject [])
  | ':' :: rest => .ok rest
  | rest => .error (.on .expectedColon rest)

def readKey : List Char → Except Stop (String × List Char)
  | [] => .error (Stop.on .endInValue [] |>.under .unknown)
  | '"' :: rest => (readString rest).mapError (Stop.under .unknown)
  | '}' :: rest => .error (Stop.on .trailingComma ('}' :: rest) |>.under .unknown)
  | rest => .error (Stop.on .keyNotString rest |>.under .unknown)

def readMembers (item : List Char → Except Stop (α × List Char)) :
    (fuel : Nat) → List Char → Except Stop (List (String × α) × List Char)
  | 0, _ => .error (.on .endInObject [])
  | fuel + 1, text => do
    let (key, rest) ← readKey text
    let rest ← readColon rest
    let (value, rest) ← (item rest).mapError (Stop.under (.key key))
    match skipBlanks rest with
    | [] => .error (Stop.on .endInObject [] |>.under .unknown)
    | '}' :: rest => .ok ([(key, value)], rest)
    | ',' :: rest => do
      let (members, rest) ← readMembers item fuel (skipBlanks rest)
      .ok ((key, value) :: members, rest)
    | rest => .error (Stop.on .expectedObjectSeparator rest |>.under .unknown)

def readObject (item : List Char → Except Stop (α × List Char)) (text : List Char) :
    Except Stop (List (String × α) × List Char) :=
  match skipBlanks text with
  | [] => .error (Stop.on .endInObject [] |>.under .unknown)
  | '}' :: rest => .ok ([], rest)
  | rest => do
    let (members, rest) ← readMembers item rest.length rest
    .ok (Members.ofWritten members, rest)

-- ---------------------------------------------------------------------------
-- Documents
-- ---------------------------------------------------------------------------

/-- A value with at most `depth` nested lists and objects. -/
def readValue (depth : Nat) (text : List Char) : Except Stop (Json × List Char) :=
  match skipBlanks text with
  | [] => .error (.on .endInValue [])
  | 'n' :: rest => readWord .null ['u', 'l', 'l'] rest
  | 't' :: rest => readWord (.boolean true) ['r', 'u', 'e'] rest
  | 'f' :: rest => readWord (.boolean false) ['a', 'l', 's', 'e'] rest
  | '"' :: rest => (readString rest).map fun (text, rest) => (.string text, rest)
  | '-' :: rest => (readNumber true rest).map fun (value, rest) => (.number value, rest)
  | '[' :: rest =>
    match depth with
    | 0 => .error (.on .tooDeep ('[' :: rest))
    | depth + 1 => (readList (readValue depth) rest).map fun (items, rest) => (.list items, rest)
  | '{' :: rest =>
    match depth with
    | 0 => .error (.on .tooDeep ('{' :: rest))
    | depth + 1 =>
      (readObject (readValue depth) rest).map fun (members, rest) => (.object members, rest)
  | c :: rest =>
    if c.isDigit then
      (readNumber false (c :: rest)).map fun (value, rest) => (.number value, rest)
    else .error (.on .expectedValue (c :: rest))

def maxDepth : Nat := 127

def readDocument (text : List Char) : Except Stop Json := do
  let (value, rest) ← readValue maxDepth text
  match skipBlanks rest with
  | [] => .ok value
  | rest => .error (.on .trailingCharacters rest)

def read (text : String) : Except Fault Json :=
  (readDocument text.toList).mapError (·.inText text.toList)

end ElmCodec.Json
