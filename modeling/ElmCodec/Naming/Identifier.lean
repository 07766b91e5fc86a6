import ElmCodec.Naming.Path
import ElmCodec.Naming.Words

/-!
# Identifiers

Type names come from paths, record fields from keys. A root path is named by
its label alone. Below the root the label is dropped and the segments' title
forms are joined; a name that would be empty or start with a digit goes behind
`Item`. Only a root label can give a type name that Elm does not accept.
-/

namespace ElmCodec

def reservedWords : List String :=
  ["if", "then", "else", "case", "of", "let", "in", "type", "module", "where", "import",
    "exposing", "as", "port", "alias", "infix"]

/-- Types and constructors that every Elm module has in scope. -/
def preludeNames : List String :=
  ["Int", "Float", "Bool", "True", "False", "Char", "String", "List", "Maybe", "Just", "Nothing",
    "Result", "Ok", "Err", "Order", "LT", "EQ", "GT", "Never", "Cmd", "Sub", "Program"]

def titleCase (text : String) : List Char := Word.title (Word.split text.toList)

def withItem (letters : List Char) : List Char :=
  match letters with
  | c :: _ => if c.isAlpha then letters else "Item".toList ++ letters
  | [] => "Item".toList

def typeName (path : Path) : String :=
  if path.isRoot then String.ofList (titleCase path.root)
  else String.ofList (withItem (path.segments.flatMap fun segment => titleCase segment.label))

def isTypeName (name : String) : Bool :=
  match name.toList with
  | [] => false
  | c :: rest => c.isUpper && rest.all fun c => c.isAlphanum || c = '_'

def withField (letters : List Char) : List Char :=
  match letters with
  | c :: _ => if c.isDigit then "field".toList ++ letters else letters
  | [] => letters

def unreserved (name : String) : String :=
  if reservedWords.contains name then name ++ "_" else name

def fieldName (key : String) : String :=
  match Word.split key.toList with
  | [] => "field"
  | words => unreserved (String.ofList (withField (Word.camel words)))

end ElmCodec
