import ElmCodec.Elm.Layout
import ElmCodec.Elm.Literal
import ElmCodec.Shape

/-!
# Encoders

Encoder expressions for the values of a document, each a function of one
argument, and the definitions that they refer to by type name.
-/

namespace ElmCodec

inductive Encoder
  | bool
  | float
  | string
  /-- Writes null for any value. -/
  | null
  /-- Writes the empty list for any value. -/
  | emptyList
  | list (item : Encoder)
  /-- The encoder defined for a declared type. -/
  | named (type : String)
  deriving DecidableEq, Repr

namespace Encoder

def definitionName (type : String) : String := "encode" ++ type

def text : Encoder → String
  | bool => "Json.Encode.bool"
  | float => "Json.Encode.float"
  | string => "Json.Encode.string"
  | null => "(\\_ -> Json.Encode.null)"
  | emptyList => "(\\_ -> Json.Encode.list identity [])"
  | list item => "(Json.Encode.list " ++ item.text ++ ")"
  | named type => definitionName type

def ofScalar : Scalar → Encoder
  | .null => null
  | .boolean _ => bool
  | .number _ => float
  | .string _ => string

def ofNode : Node → Encoder
  | .scalar _ value => ofScalar value
  | .object path _ => named (typeName path)
  | .list _ [] => emptyList
  | .list path (first :: rest) =>
    if Node.isMixed (first :: rest) then list (named (typeName path)) else list (ofNode first)

end Encoder

structure FieldEncoder where
  key : String
  encoder : Encoder
  identifier : String
  deriving DecidableEq, Repr

inductive EncoderBody
  /-- The empty object. -/
  | empty
  | object (fields : List FieldEncoder)
  /-- One branch for each constructor. -/
  | cases (branches : List (String × Encoder))
  | expression (encoder : Encoder)
  deriving DecidableEq, Repr

namespace EncoderBody

def ofFields (fields : List FieldEncoder) : EncoderBody :=
  if fields.isEmpty then empty else object fields

def fieldText (field : FieldEncoder) : String :=
  "( " ++ literal field.key ++ ", " ++ field.encoder.text ++ " record." ++ field.identifier ++ " )"

def branchText (branch : String × Encoder) : String :=
  branch.1 ++ " payload ->\n            " ++ branch.2.text ++ " payload"

def arguments : EncoderBody → String
  | empty => " _"
  | object _ => " record"
  | cases _ => " value"
  | expression _ => ""

def text : EncoderBody → String
  | empty => "Json.Encode.object []"
  | object fields =>
    "Json.Encode.object" ++
      Layout.lines (Layout.marked "        [ " "        , " (fields.map fieldText)) ++ "\n        ]"
  | cases branches =>
    "case value of" ++ Layout.lines (Layout.marked "        " "\n        " (branches.map branchText))
  | expression encoder => encoder.text

end EncoderBody

structure EncoderDecl where
  name : String
  type : Label
  body : EncoderBody
  deriving DecidableEq, Repr

namespace EncoderDecl

def ofShape : Shape → EncoderDecl
  | .record name _ fields =>
    ⟨name, .named name,
      .ofFields (fields.map fun field => ⟨field.key, .ofNode field.node, field.identifier⟩)⟩
  | .sum name _ variants =>
    ⟨name, .named name,
      .cases (variants.map fun variant => (variant.constructor, .ofNode variant.exemplar))⟩

def text (decl : EncoderDecl) : String :=
  let name := Encoder.definitionName decl.name
  name ++ " : " ++ decl.type.text ++ " -> Json.Encode.Value\n" ++
    name ++ decl.body.arguments ++ " =\n    " ++ decl.body.text

end EncoderDecl

end ElmCodec
