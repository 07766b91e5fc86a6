import ElmCodec.Json.Shortest
import ElmCodec.Json.Value

/-!
# Writing JSON

Strings escape quotes, backslashes and the controls below the space, and
nothing else. Values are written with two spaces for each level.
-/

namespace ElmCodec

/-- A number has four zeros after the point at most, and a sign in every exponent. -/
def Number.style : Double.DecimalStyle := ⟨4, true⟩

def Number.text : Number → String
  | integer value => toString value
  | double value => value.text Number.style

namespace Json

def hexEscape (c : Char) : List Char :=
  let digits := Nat.toDigits 16 c.toNat
  '\\' :: 'u' :: List.replicate (4 - digits.length) '0' ++ digits

def quoteChar (c : Char) : List Char :=
  if c = '"' then ['\\', '"']
  else if c = '\\' then ['\\', '\\']
  else if c = '\x08' then ['\\', 'b']
  else if c = '\x0c' then ['\\', 'f']
  else if c = '\n' then ['\\', 'n']
  else if c = '\r' then ['\\', 'r']
  else if c = '\t' then ['\\', 't']
  else if c < ' ' then hexEscape c
  else [c]

def quote (text : String) : String :=
  String.ofList ('"' :: text.toList.flatMap quoteChar ++ ['"'])

def block (opening closing : String) (indent : String) (entries : List String) : String :=
  if entries.isEmpty then opening ++ closing
  else
    opening ++ "\n" ++ ",\n".intercalate (entries.map ((indent ++ "  ") ++ ·)) ++
      "\n" ++ indent ++ closing

mutual

def pretty (indent : String) : Json → String
  | null => "null"
  | boolean value => if value then "true" else "false"
  | number value => value.text
  | string text => quote text
  | list items => block "[" "]" indent (prettyItems (indent ++ "  ") items)
  | object members => block "\x7b" "\x7d" indent (prettyMembers (indent ++ "  ") members)

def prettyItems (indent : String) : List Json → List String
  | [] => []
  | item :: rest => item.pretty indent :: prettyItems indent rest

def prettyMembers (indent : String) : List (String × Json) → List String
  | [] => []
  | (key, value) :: rest =>
    (quote key ++ ": " ++ value.pretty indent) :: prettyMembers indent rest

end

end Json

end ElmCodec
