import ElmCodec.Command.Files

/-!
# Hosts

What a command needs from the system that it runs on. `World` is a system of
values: files, standard input and what has been printed.
-/

namespace ElmCodec.Command

class Host (m : Type → Type) where
  readFile : String → m (Except FileFault ByteArray)
  readInput : m ByteArray
  /-- Makes one directory, in one that is there. -/
  makeDirectory : String → m (Except FileFault Unit)
  writeFile : String → String → m (Except FileFault Unit)
  print : String → m Unit

structure World where
  files : Files
  input : ByteArray
  printed : String := ""

def World.update (world : World) : Except FileFault Files → Except FileFault Unit × World
  | .ok files => (.ok (), { world with files })
  | .error fault => (.error fault, world)

instance : Host (StateM World) where
  readFile path := return (← get).files.read path
  readInput := return (← get).input
  makeDirectory path := modifyGet fun world => world.update (world.files.makeDirectory path)
  writeFile path text := modifyGet fun world => world.update (world.files.write path text.toUTF8)
  print text := modify fun world => { world with printed := world.printed ++ text }

namespace Host

variable {m : Type → Type} [Monad m] [Host m]

/-- A directory is what cannot be read because it is one. -/
def isDirectory (path : String) : m Bool := do
  match ← readFile path with
  | .error .isDirectory => return true
  | _ => return false

/-- A fault in making a directory, unless it is there all the same. -/
def unlessDirectory (path : String) (fault : FileFault) : m (Except FileFault Unit) := do
  if ← isDirectory path then return .ok () else return .error fault

def ensureDirectory (path : String) : m (Except FileFault Unit) := do
  match ← makeDirectory path with
  | .ok () => return .ok ()
  | .error fault => unlessDirectory path fault

/-- Makes a directory and those above it that are missing; the number bounds how
many. Directories made before a fault stay. -/
def makeDirectories : Nat → String → m (Except FileFault Unit)
  | 0, path => if path = "" then return .ok () else ensureDirectory path
  | fuel + 1, path => do
    if path = "" then return .ok ()
    match ← makeDirectory path, parent? path with
    | .ok (), _ => return .ok ()
    | .error .notFound, some above =>
      match ← makeDirectories fuel above with
      | .ok () => ensureDirectory path
      | .error fault => return .error fault
    | .error fault, _ => unlessDirectory path fault

end Host

end ElmCodec.Command
