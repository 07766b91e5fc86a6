import ElmCodec.Shape.Walk
import ElmCodec.Text.Quoted

/-!
# Names that would not compile

Declared names have to be type names of Elm, free of the prelude's names and
different from each other, and the fields of a record have to differ. Names are
looked at in the order of the walk, a declaration's own name before its fields
or constructors, and the first offence is reported.
-/

namespace ElmCodec

def documentName : String := "Document"

inductive Holder
  | prelude
  | documentCodec
  | node (path : Path)
  deriving DecidableEq, Repr

def Holder.text : Holder → String
  | prelude => "the Elm prelude"
  | documentCodec => "the document codec"
  | node path => path.text

inductive NameFault
  | taken (name : String) (first : Holder) (second : Path)
  | sameField (record identifier first second : String)
  | notTypeName (name : String) (path : Path)
  deriving DecidableEq, Repr

def NameFault.message : NameFault → String
  | taken name first second =>
    "naming conflict: `" ++ name ++ "` is declared by both " ++ first.text ++ " and " ++ second.text
  | sameField record identifier first second =>
    "field conflict in `" ++ record ++ "`: keys " ++ Text.quote first ++ " and " ++
      Text.quote second ++ " both become `" ++ identifier ++ "`"
  | notTypeName name path =>
    "`" ++ name ++ "` (derived from " ++ path.text ++ ") is not a valid Elm type name"

namespace NameCheck

abbrev Held := List (String × Holder)

def declare (held : Held) (name : String) (path : Path) : Except NameFault Held :=
  if !isTypeName name then .error (.notTypeName name path)
  else if preludeNames.contains name then .error (.taken name .prelude path)
  else
    match held.lookup name with
    | some first => .error (.taken name first path)
    | none => .ok ((name, .node path) :: held)

/-- `seen` holds the key of each identifier met so far. -/
def checkFields (record : String) (seen : List (String × String)) :
    List Field → Except NameFault Unit
  | [] => .ok ()
  | field :: rest =>
    match seen.lookup field.identifier with
    | some first => .error (.sameField record field.identifier first field.key)
    | none => checkFields record ((field.identifier, field.key) :: seen) rest

def checkShape (held : Held) : Shape → Except NameFault Held
  | .record name path fields => do
    let held ← declare held name path
    checkFields name [] fields
    return held
  | .sum name path variants => do
    let held ← declare held name path
    variants.foldlM (fun held variant => declare held variant.constructor path) held

def visit (shape : Shape) : StateT Held (Except NameFault) Unit := do
  set (← checkShape (← get) shape)

/-- What is held before the walk. A record reads itself; any other document
needs a codec of its own. -/
def reserved (root : Node) : Held :=
  if root.isRecord then [] else [(documentName, .documentCodec)]

def run (root : Node) : Except NameFault Unit := do
  let _ ← (root.walk visit).run (reserved root)

end NameCheck

end ElmCodec
