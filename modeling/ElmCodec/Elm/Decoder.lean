import ElmCodec.Elm.Layout
import ElmCodec.Elm.Literal
import ElmCodec.Shape

/-!
# Decoders

Decoder expressions for the values of a document, and the definitions that they
refer to by type name. A uniform list is decoded like its first item, a mixed
list by the decoder of its sum type, and a list without items takes any items.
-/

namespace ElmCodec

inductive Decoder
  | bool
  | float
  | string
  | null
  /-- Takes any value for the unit. -/
  | anything
  | list (item : Decoder)
  /-- The decoder defined for a declared type. -/
  | named (type : String)
  deriving DecidableEq, Repr

namespace Decoder

def definitionName (type : String) : String := "decode" ++ type

def text : Decoder → String
  | bool => "Json.Decode.bool"
  | float => "Json.Decode.float"
  | string => "Json.Decode.string"
  | null => "(Json.Decode.null ())"
  | anything => "(Json.Decode.succeed ())"
  | list item => "(Json.Decode.list " ++ item.text ++ ")"
  | named type => definitionName type

def ofScalar : Scalar → Decoder
  | .null => null
  | .boolean _ => bool
  | .number _ => float
  | .string _ => string

def ofNode : Node → Decoder
  | .scalar _ value => ofScalar value
  | .object path _ => named (typeName path)
  | .list _ [] => list anything
  | .list path (first :: rest) =>
    if Node.isMixed (first :: rest) then list (named (typeName path)) else list (ofNode first)

end Decoder

inductive DecoderBody
  /-- A record without fields. -/
  | empty
  /-- The constructor mapped over all fields at once. -/
  | apply (constructor : String) (fields : List (String × Decoder))
  /-- The constructor applied to one field after another. -/
  | pipe (constructor : String) (fields : List (String × Decoder))
  /-- The first constructor whose decoder takes the value. -/
  | oneOf (alternatives : List (String × Decoder))
  | expression (decoder : Decoder)
  deriving DecidableEq, Repr

namespace DecoderBody

/-- The most decoders that one `map` of Elm's library combines. -/
def maxArity : Nat := 8

def ofFields (constructor : String) (fields : List (String × Decoder)) : DecoderBody :=
  if fields.isEmpty then empty
  else if fields.length ≤ maxArity then apply constructor fields
  else pipe constructor fields

def fieldText (field : String × Decoder) : String :=
  "(Json.Decode.field " ++ literal field.1 ++ " " ++ field.2.text ++ ")"

def alternativeText (alternative : String × Decoder) : String :=
  "Json.Decode.map " ++ alternative.1 ++ " " ++ alternative.2.text

def mapText (arity : Nat) : String :=
  if arity = 1 then "Json.Decode.map" else "Json.Decode.map" ++ toString arity

def text : DecoderBody → String
  | empty => "Json.Decode.succeed \x7b\x7d"
  | apply constructor fields =>
    mapText fields.length ++ " " ++ constructor ++
      Layout.lines (fields.map fun field => "        " ++ fieldText field)
  | pipe constructor fields =>
    "Json.Decode.succeed " ++ constructor ++
      Layout.lines (fields.map fun field => "        |> Json.Decode.map2 (|>) " ++ fieldText field)
  | oneOf alternatives =>
    "Json.Decode.oneOf" ++
      Layout.lines (Layout.marked "        [ " "        , " (alternatives.map alternativeText)) ++ "\n        ]"
  | expression decoder => decoder.text

end DecoderBody

structure DecoderDecl where
  name : String
  type : Label
  body : DecoderBody
  deriving DecidableEq, Repr

namespace DecoderDecl

def ofShape : Shape → DecoderDecl
  | .record name _ fields =>
    ⟨name, .named name, .ofFields name (fields.map fun field => (field.key, .ofNode field.node))⟩
  | .sum name _ variants =>
    ⟨name, .named name,
      .oneOf (variants.map fun variant => (variant.constructor, .ofNode variant.exemplar))⟩

def text (decl : DecoderDecl) : String :=
  let name := Decoder.definitionName decl.name
  name ++ " : Json.Decode.Decoder " ++ decl.type.atom ++ "\n" ++
    name ++ " =\n    " ++ decl.body.text

end DecoderDecl

end ElmCodec
