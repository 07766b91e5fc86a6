/-!
# Type labels

The Elm type of a value, written as it stands in a declaration. Labels are
ordered by their text, with `List ()` after all others: its decoder takes any
list and would hide the alternatives that come after it.
-/

namespace ElmCodec

inductive Label
  | bool
  | float
  | string
  | unit
  | named (name : String)
  | list (item : Label)
  deriving DecidableEq, Repr

namespace Label

def isList : Label → Bool
  | list _ => true
  | _ => false

def text : Label → String
  | bool => "Bool"
  | float => "Float"
  | string => "String"
  | unit => "()"
  | named name => name
  | list item => "List " ++ if item.isList then "(" ++ item.text ++ ")" else item.text

/-- The label as an argument: a list goes in parentheses. -/
def atom (label : Label) : String :=
  if label.isList then "(" ++ label.text ++ ")" else label.text

theorem text_list (item : Label) : (list item).text = "List " ++ item.atom := rfl

def isEmptyList (label : Label) : Bool := label = list unit

/-- The order of variants and of decoder alternatives. -/
def compare (a b : Label) : Ordering :=
  (Ord.compare a.isEmptyList b.isEmptyList).then (Ord.compare a.text b.text)

end Label

end ElmCodec
