import ElmCodec.Elm.Layout
import ElmCodec.Shape

/-!
# Type declarations

A record alias for an object, a union for a mixed list.
-/

namespace ElmCodec

inductive TypeDecl
  | record (name : String) (fields : List (String × Label))
  | union (name : String) (variants : List (String × Label))
  deriving DecidableEq, Repr

namespace TypeDecl

def name : TypeDecl → String
  | record name _ | union name _ => name

def ofShape : Shape → TypeDecl
  | .record name _ fields => record name (fields.map fun field => (field.identifier, field.label))
  | .sum name _ variants =>
    union name (variants.map fun variant => (variant.constructor, variant.label))

def fieldText (field : String × Label) : String := field.1 ++ " : " ++ field.2.text

def variantText (variant : String × Label) : String := variant.1 ++ " " ++ variant.2.atom

def text : TypeDecl → String
  | record name [] => "type alias " ++ name ++ " =\n    \x7b\x7d"
  | record name fields =>
    "type alias " ++ name ++ " =" ++
      Layout.lines (Layout.marked "    \x7b " "    , " (fields.map fieldText)) ++ "\n    \x7d"
  | union name variants =>
    "type " ++ name ++ Layout.lines (Layout.marked "    = " "    | " (variants.map variantText))

end TypeDecl

end ElmCodec
