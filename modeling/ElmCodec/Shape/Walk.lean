import ElmCodec.Shape

/-!
# The walk over a document

One traversal serves every reader of shapes, so their results line up one by
one. Parents come before children, object members in the order of their keys,
list items in document order. A visitor may carry state and may fail; a failed
visit ends the walk.
-/

namespace ElmCodec.Node

variable {m : Type → Type} [Monad m]

mutual

/-- Visits the shapes of a node and of the nodes below it. A uniform list is
represented by its first item. -/
def walk (visit : Shape → m Unit) : Node → m Unit
  | scalar .. => pure ()
  | object path members => do
    visit (.ofMembers path members)
    (Members.sort (walkMembers visit members)).forM fun step => step.2
  | list _ [] => pure ()
  | list path (first :: rest) =>
    if isMixed (first :: rest) then do
      visit (.ofItems path (first :: rest))
      walkItems visit (first :: rest)
    else if first.isDeclaring then walk visit first
    else pure ()

def walkItems (visit : Shape → m Unit) : List Node → m Unit
  | [] => pure ()
  | item :: rest => do
    (if item.isDeclaring then walk visit item else pure ())
    walkItems visit rest

def walkMembers (visit : Shape → m Unit) : List (String × Node) → List (String × m Unit)
  | [] => []
  | (key, node) :: rest =>
    (key, if node.isDeclaring then walk visit node else pure ()) :: walkMembers visit rest

end

end ElmCodec.Node
