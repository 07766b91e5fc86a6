import ElmCodec.Json.Writer
import ElmCodec.Text.Digits

/-!
# Values of jq

JSON values with three kinds of numbers: machine integers, decimals that stay
as they were written, and doubles, which is what computing with a decimal
gives. The written form of a value has no blanks; a double that is no number of
JSON is written as null.
-/

namespace ElmCodec.Jq

inductive Value
  | null
  | boolean (value : Bool)
  | integer (value : Int)
  | decimal (text : String)
  | double (value : Double)
  | string (text : String)
  | array (items : List Value)
  | object (members : List (String × Value))
  deriving Repr

namespace Value

/-- An integer of the machine, or else the text itself. -/
def ofInteger (value : Int) : Value :=
  if -(twoTo 63 : Int) ≤ value ∧ value < (twoTo 63 : Int) then integer value else decimal (toString value)

/-- The machine integer that a computed one wraps around to. -/
def wrapped (value : Int) : Value := integer (value.bmod (twoTo 64))

/-- Whole digits, the digits after the point and the power of ten of an unsigned decimal. -/
def decimalParts (chars : List Char) : List Char × List Char × Int :=
  let (fraction, power) : List Char × List Char :=
    match chars.dropWhile Char.isDigit with
    | '.' :: rest => (rest.takeWhile Char.isDigit, rest.dropWhile Char.isDigit)
    | rest => ([], rest)
  let power : Int :=
    match power with
    | _ :: '-' :: digits => -(Text.natOfDigits digits : Int)
    | _ :: '+' :: digits => Text.natOfDigits digits
    | _ :: digits => Text.natOfDigits digits
    | [] => 0
  (chars.takeWhile Char.isDigit, fraction, power)

def nearestTo (text : String) : Double :=
  let (negative, chars) : Bool × List Char :=
    match text.toList with
    | '-' :: rest => (true, rest)
    | chars => (false, chars)
  let (whole, fraction, power) := decimalParts chars
  let x := Double.nearest (Text.natOfDigits (whole ++ fraction)) (power - fraction.length)
  if negative then x.neg else x

mutual

def ofJson : Json → Value
  | .null => null
  | .boolean value => boolean value
  | .number (.integer value) => ofInteger value
  | .number (.double value) => decimal (value.text Number.style)
  | .string text => string text
  | .list items => array (ofItems items)
  | .object members => object (ofMembers members)

def ofItems : List Json → List Value
  | [] => []
  | item :: rest => ofJson item :: ofItems rest

def ofMembers : List (String × Json) → List (String × Value)
  | [] => []
  | (key, value) :: rest => (key, ofJson value) :: ofMembers rest

end

/-- A computed double has three zeros after the point at most. -/
def style : Double.DecimalStyle := ⟨3, false⟩

/-- Of the controls, only line breaks and the tab have short escapes. -/
def quoteChar (c : Char) : List Char :=
  if c = '\x08' ∨ c = '\x0c' then Json.hexEscape c else Json.quoteChar c

def quote (text : String) : String :=
  String.ofList ('"' :: text.toList.flatMap quoteChar ++ ['"'])

mutual

def text : Value → String
  | null => "null"
  | boolean value => if value then "true" else "false"
  | integer value => toString value
  | decimal text => text
  | double value => if value.isFinite then value.text style else "null"
  | string text => quote text
  | array items => "[" ++ ",".intercalate (itemTexts items) ++ "]"
  | object members => "\x7b" ++ ",".intercalate (memberTexts members) ++ "\x7d"

def itemTexts : List Value → List String
  | [] => []
  | item :: rest => item.text :: itemTexts rest

def memberTexts : List (String × Value) → List String
  | [] => []
  | (key, value) :: rest => (quote key ++ ":" ++ value.text) :: memberTexts rest

end

def insertedText : Value → String
  | string text => text
  | value => value.text

mutual

def descendants (value : Value) : List Value :=
  value :: match value with
    | array items => itemDescendants items
    | object members => memberDescendants members
    | _ => []

def itemDescendants : List Value → List Value
  | [] => []
  | item :: rest => item.descendants ++ itemDescendants rest

def memberDescendants : List (String × Value) → List Value
  | [] => []
  | (_, value) :: rest => value.descendants ++ memberDescendants rest

end

end Value

end ElmCodec.Jq
