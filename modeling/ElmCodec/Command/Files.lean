import ElmCodec.Json.Members
import ElmCodec.Text.Split

/-!
# Files

The files and directories below the working directory, and what becomes of
them when a path is read, written or made. A path is followed one component at
a time, and every component but the last has to be a directory.
-/

namespace ElmCodec.Command

inductive FileFault
  | notFound
  | notDirectory
  | isDirectory
  | alreadyExists
  | other (text : String)
  deriving DecidableEq, Repr

def FileFault.message : FileFault → String
  | notFound => "No such file or directory (os error 2)"
  | alreadyExists => "File exists (os error 17)"
  | notDirectory => "Not a directory (os error 20)"
  | isDirectory => "Is a directory (os error 21)"
  | other text => text

/-- A place: the names on the way to it from the working directory. -/
abbrev Place := List String

structure Files where
  files : List (Place × ByteArray) := []
  /-- Directories apart from those that hold a file. -/
  directories : List Place := []

namespace Files

def content? (store : Files) (place : Place) : Option ByteArray := store.files.lookup place

def isAbove (place other : Place) : Bool := place.isPrefixOf other && place ≠ other

/-- The working directory, those above it and the root of the file system are always there. -/
def isDirectory (store : Files) (place : Place) : Bool :=
  place.all (· = "..") || place = ["/"] || store.directories.any (place.isPrefixOf ·) ||
    store.files.any fun file => isAbove place file.1

def enter (store : Files) (place : Place) (component : String) : Except FileFault Place :=
  if !store.isDirectory place then
    .error (if (store.content? place).isSome then .notDirectory else .notFound)
  else if component = "" ∨ component = "." then .ok place
  else if component = ".." then
    if place.all (· = "..") then .ok (place ++ [".."])
    else if place = ["/"] then .ok place
    else .ok place.dropLast
  else .ok (place ++ [component])

def resolve (store : Files) (path : String) : Except FileFault Place :=
  match Text.parts '/' path with
  | "" :: rest => rest.foldlM store.enter ["/"]
  | parts => parts.foldlM store.enter []

def read (store : Files) (path : String) : Except FileFault ByteArray := do
  let place ← store.resolve path
  match store.content? place with
  | some bytes => .ok bytes
  | none => .error (if store.isDirectory place then .isDirectory else .notFound)

def put (store : Files) (place : Place) (bytes : ByteArray) : Files :=
  { store with files := Members.set place bytes store.files }

/-- A path that ends in a slash is always taken for a directory. -/
def write (store : Files) (path : String) (bytes : ByteArray) : Except FileFault Files := do
  let place ← store.resolve (String.ofList (path.toList.reverse.dropWhile (· = '/')).reverse)
  if path.toList.getLast? = some '/' || store.isDirectory place then .error .isDirectory
  else .ok (store.put place bytes)

def makeDirectory (store : Files) (path : String) : Except FileFault Files := do
  let place ← store.resolve path
  if store.isDirectory place || (store.content? place).isSome then .error .alreadyExists
  else .ok { store with directories := place :: store.directories }

end Files

/-- Drops what means nothing at the end of a path, but not its first part. -/
def trimParts : List String → List String
  | [] => []
  | [part] => [part]
  | part :: rest => if part = "" ∨ part = "." then trimParts rest else part :: rest

/-- The path of the directory that holds what `path` leads to; empty for the
working directory. The root of the file system is in no directory. -/
def parent? (path : String) : Option String :=
  match trimParts (Text.parts '/' path).reverse with
  | [] | [""] => none
  | [_] => some ""
  | _ :: above =>
    match trimParts above with
    | [""] => some "/"
    | above => some ("/".intercalate above.reverse)

end ElmCodec.Command
