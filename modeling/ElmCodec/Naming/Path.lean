/-!
# Naming paths

A path is the label of the document's root and one segment for each step down
to a node. Field names and list positions stay apart, so no key can be taken
for a position.
-/

namespace ElmCodec

/-- Nouns for the first items of a list. Later items are called by number. -/
def positionNouns : List String :=
  ["Object", "Entity", "Thing", "Instance", "Constituent", "Specimen", "Gadget", "Widget",
    "Gizmo", "Part", "Chunk", "Piece", "Thingy", "Thingamajig", "Whatsit", "Doodad"]

inductive Segment
  | field (name : String)
  | position (index : Nat)
  deriving DecidableEq, Repr

def Segment.label : Segment → String
  | field name => name
  | position index => positionNouns.getD index (toString index)

def Segment.text : Segment → String
  | field name => "." ++ name
  | position index => "[" ++ toString index ++ "]"

structure Path where
  root : String
  segments : List Segment
  deriving DecidableEq, Repr

namespace Path

def defaultRoot : String := "Root"

def ofRoot (root : String) : Path := ⟨root, []⟩

def isRoot (path : Path) : Bool := path.segments.isEmpty

def child (path : Path) (segment : Segment) : Path :=
  { path with segments := path.segments ++ [segment] }

/-- An object member. The empty key adds no segment. -/
def field (path : Path) (name : String) : Path :=
  if name = "" then path else path.child (.field name)

def position (path : Path) (index : Nat) : Path := path.child (.position index)

def text (path : Path) : String := path.root ++ String.join (path.segments.map Segment.text)

end Path

end ElmCodec
