import ElmCodec.Json.Value
import ElmCodec.Text.Digits
import ElmCodec.Text.Split

/-!
# JSON pointers

A pointer is empty, for the whole document, or a slash before each of its
tokens. In a token `~1` stands for a slash and `~0` for a tilde. A token names
a member of an object, or an item of a list by its decimal index.
-/

namespace ElmCodec.Json

def unescapeToken : List Char → List Char
  | [] => []
  | '~' :: '1' :: rest => '/' :: unescapeToken rest
  | '~' :: '0' :: rest => '~' :: unescapeToken rest
  | c :: rest => c :: unescapeToken rest

/-- Decimal digits without a leading zero. -/
def tokenIndex? (token : List Char) : Option Nat :=
  match token with
  | [] => none
  | '0' :: _ :: _ => none
  | digits =>
    if digits.all Char.isDigit then some (Text.natOfDigits digits) else none

def descend (value : Json) (token : List Char) : Option Json :=
  match value with
  | object members => members.lookup (String.ofList token)
  | list items => (tokenIndex? token).bind fun index => items[index]?
  | _ => none

def select (pointer : String) (value : Json) : Option Json :=
  match pointer.toList with
  | [] => some value
  | '/' :: rest => ((Text.splitOn '/' rest).map unescapeToken).foldlM descend value
  | _ => none

end ElmCodec.Json
