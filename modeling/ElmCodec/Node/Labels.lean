import ElmCodec.Label
import ElmCodec.Naming.Identifier
import ElmCodec.Node
import ElmCodec.Sort

/-!
# Labels of nodes

The label of a node follows from its structure. A list is uniform when its
items share one label; the items of any other list with items are variants of a
sum type named after the list.
-/

namespace ElmCodec

def Scalar.label : Scalar → Label
  | null => .unit
  | boolean _ => .bool
  | number _ => .float
  | string _ => .string

namespace Label

def sort (labels : List Label) : List Label := sortBy (fun a b => (a.compare b).isLE) labels

def distinct (labels : List Label) : List Label :=
  (sort labels).eraseReps

def ofItems (path : Path) (labels : List Label) : Label :=
  match distinct labels with
  | [] => unit
  | [label] => label
  | _ => named (typeName path)

end Label

namespace Node

mutual

def label : Node → Label
  | scalar _ value => value.label
  | list path items => .list (.ofItems path (labels items))
  | object path _ => .named (typeName path)

def labels : List Node → List Label
  | [] => []
  | item :: rest => item.label :: labels rest

end

theorem labels_eq_map (items : List Node) : labels items = items.map label := by
  induction items with
  | nil => rfl
  | cons item rest ih => simp [labels, ih]

def isMixed (items : List Node) : Bool := decide (1 < (Label.distinct (labels items)).length)

def isDeclaring : Node → Bool
  | scalar .. => false
  | list _ items => items.any isComposite || isMixed items
  | object .. => true

def firsts : List Node → List (Label × Node)
  | [] => []
  | item :: rest => (item.label, item) :: (firsts rest).filter fun later => later.1 ≠ item.label

/-- One node for each label, in the order of labels. -/
def representatives (items : List Node) : List (Label × Node) :=
  sortBy (fun a b => (a.1.compare b.1).isLE) (firsts items)

end Node

end ElmCodec
