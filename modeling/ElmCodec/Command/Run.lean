import ElmCodec.Command.Arguments
import ElmCodec.Command.Host
import ElmCodec.Jq.Selection
import ElmCodec.Json.Pointer

/-!
# Running a command

A command reads its input, selects a document in it, converts the document and
writes the result. Nothing is written before everything else has succeeded.
-/

namespace ElmCodec.Command

inductive Source
  | input
  | file (path : String)
  deriving DecidableEq, Repr

namespace Source

def text : Source → String
  | input => "stdin"
  | file path => path

def origin : Source → String
  | input => "<stdin>"
  | file path => path

end Source

inductive Failure
  | unreadable (path : String) (fault : FileFault)
  | notText (source : Source)
  | malformed (source : Source) (fault : Json.Fault)
  | noMatch (pointer : String) (source : Source)
  | unfiltered (source : Source) (fault : Jq.Fault)
  | names (fault : NameFault)
  | noDirectory (path : String) (fault : FileFault)
  | unwritable (path : String) (fault : FileFault)
  deriving DecidableEq, Repr

def Failure.message : Failure → String
  | unreadable path fault => "failed to read " ++ path ++ ": " ++ fault.message
  | notText source => "failed to read " ++ source.text ++ ": stream did not contain valid UTF-8"
  | malformed source fault => "in " ++ source.origin ++ ": " ++ fault.message
  | noMatch pointer source =>
    "JSON pointer " ++ Text.quote pointer ++ " matched nothing in " ++ source.origin
  | unfiltered source fault =>
    "failed to apply jq expression to " ++ source.origin ++ ": " ++ fault.message
  | names fault => fault.message
  | noDirectory path fault => "failed to create " ++ path ++ ": " ++ fault.message
  | unwritable path fault => "failed to write " ++ path ++ ": " ++ fault.message

namespace Request

def source (request : Request) : Source :=
  match request.input with
  | none | some "-" => .input
  | some path => .file path

def document (request : Request) (engine : Jq.Engine) (bytes : ByteArray) :
    Except Failure Json := do
  let some text := String.fromUTF8? bytes | .error (.notText request.source)
  let value ← (Json.read text).mapError (.malformed request.source)
  let value ←
    match request.pointer with
    | none => pure value
    | some pointer =>
      match Json.select pointer value with
      | some value => pure value
      | none => .error (.noMatch pointer request.source)
  match request.filter with
  | none => return value
  | some filter => (Jq.select engine filter value).mapError (.unfiltered request.source)

def render (request : Request) (artifacts : Artifacts) : String :=
  match request.output with
  | .elm moduleName => artifacts.render moduleName
  | .artifacts => artifacts.toJson.pretty ""

def result (request : Request) (engine : Jq.Engine) (bytes : ByteArray) :
    Except Failure String := do
  let document ← request.document engine bytes
  let artifacts ← (Artifacts.ofJson request.options document).mapError .names
  return request.render artifacts

variable {m : Type → Type} [Monad m] [Host m]

def readSource (request : Request) : ExceptT Failure m ByteArray :=
  match request.source with
  | .input => ExceptT.lift Host.readInput
  | .file path => ExceptT.mk (return (← Host.readFile path).mapError (.unreadable path))

def makeParent (path : String) : ExceptT Failure m Unit :=
  match parent? path with
  | none => pure ()
  | some above =>
    ExceptT.mk (return (← Host.makeDirectories path.length above).mapError (.noDirectory above))

def writeResult (request : Request) (text : String) : ExceptT Failure m Unit :=
  match request.out with
  | none => ExceptT.lift (Host.print (text ++ "\n"))
  | some path => do
    makeParent path
    ExceptT.mk (return (← Host.writeFile path text).mapError (.unwritable path))

def run (request : Request) (engine : Jq.Engine) : ExceptT Failure m Unit := do
  let bytes ← request.readSource
  let text ← ExceptT.mk (pure (request.result engine bytes))
  request.writeResult text

end Request

def versionText : String := "json-elm 0.1.0"

def helpText : String :=
  "Usage: json-elm [-v] <elm|artifacts> [--json-pointer P] [--jq-expr F] [--root LABEL] " ++
    "[--parallel] [--module NAME] [-o FILE] [INPUT]"

inductive Outcome
  | success
  | failure (reason : Failure)
  | usage
  deriving DecidableEq, Repr

def Outcome.status : Outcome → Nat
  | success => 0
  | failure _ => 1
  | usage => 2

def runArguments {m : Type → Type} [Monad m] [Host m] (arguments : List String) : m Outcome := do
  match Invocation.ofArguments? arguments with
  | none => return .usage
  | some .version =>
    Host.print (versionText ++ "\n")
    return .success
  | some .help =>
    Host.print (helpText ++ "\n")
    return .success
  | some (.run request) =>
    match ← (request.run Jq.Filter.engine).run with
    | .ok () => return .success
    | .error reason => return .failure reason

end ElmCodec.Command
