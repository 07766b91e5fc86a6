import ElmCodec.Json.Members
import ElmCodec.Node.Labels

/-!
# Shapes of declarations

What there is to declare for a document: a record alias for every object and a
sum type for every mixed list. A shape holds all that its type, its decoder and
its encoder are made of.
-/

namespace ElmCodec

structure Field where
  key : String
  identifier : String
  label : Label
  node : Node
  deriving Repr

/-- A variant of a sum type; `exemplar` is the first item with its label. -/
structure Variant where
  constructor : String
  label : Label
  exemplar : Node
  deriving Repr

inductive Shape
  | record (name : String) (path : Path) (fields : List Field)
  | sum (name : String) (path : Path) (variants : List Variant)
  deriving Repr

namespace Shape

def name : Shape → String
  | record name .. | sum name .. => name

def path : Shape → Path
  | record _ path _ | sum _ path _ => path

def field (key : String) (node : Node) : Field := ⟨key, fieldName key, node.label, node⟩

def ofMembers (path : Path) (members : List (String × Node)) : Shape :=
  record (typeName path) path ((Members.sort members).map fun (key, node) => field key node)

/-- Constructors are the type's name and a number, in the order of labels. -/
def variants (name : String) (index : Nat) : List (Label × Node) → List Variant
  | [] => []
  | (label, exemplar) :: rest =>
    ⟨name ++ toString index, label, exemplar⟩ :: variants name (index + 1) rest

def ofItems (path : Path) (items : List Node) : Shape :=
  sum (typeName path) path (variants (typeName path) 0 (Node.representatives items))

end Shape

end ElmCodec
