import ElmCodec.Json.Value
import ElmCodec.Naming.Path

/-!
# Annotated documents

A node is a JSON value that knows its naming path, and so does every value
below it. Numbers are doubles.
-/

namespace ElmCodec

inductive Scalar
  | null
  | boolean (value : Bool)
  | number (value : Double)
  | string (text : String)
  deriving DecidableEq, Repr

inductive Node
  | scalar (path : Path) (value : Scalar)
  | list (path : Path) (items : List Node)
  | object (path : Path) (members : List (String × Node))
  deriving Repr

namespace Node

def path : Node → Path
  | scalar path _ | list path _ | object path _ => path

def isComposite : Node → Bool
  | scalar .. => false
  | list .. | object .. => true

def isRecord : Node → Bool
  | object .. => true
  | _ => false

mutual

def annotate (path : Path) : Json → Node
  | .null => scalar path .null
  | .boolean value => scalar path (.boolean value)
  | .number value => scalar path (.number value.toDouble)
  | .string text => scalar path (.string text)
  | .list items => list path (annotateItems path 0 items)
  | .object members => object path (annotateMembers path members)

def annotateItems (path : Path) (index : Nat) : List Json → List Node
  | [] => []
  | item :: rest => annotate (path.position index) item :: annotateItems path (index + 1) rest

def annotateMembers (path : Path) : List (String × Json) → List (String × Node)
  | [] => []
  | (key, value) :: rest => (key, annotate (path.field key) value) :: annotateMembers path rest

end

end Node

end ElmCodec
