import ElmCodec.Conversion

/-!
# Arguments

What a command line asks for. Options stand before or after the input, as
`--name value`, `--name=value`, `-o value`, `-ovalue` or `-o=value`. A value of
its own does not start with a dash, unless it is a dash alone. Every option but
`-v` may be given once. What does not follow these rules is a usage error.
-/

namespace ElmCodec.Command

inductive Output
  | elm (moduleName : String)
  | artifacts
  deriving DecidableEq, Repr

structure Request where
  output : Output
  /-- The file to read, unless it is standard input. -/
  input : Option String
  pointer : Option String
  filter : Option String
  options : Options
  /-- The file to write, unless it is standard output. -/
  out : Option String
  deriving DecidableEq, Repr

inductive Invocation
  | run (request : Request)
  | version
  | help
  deriving DecidableEq, Repr

inductive Subcommand
  | elm
  | artifacts
  deriving DecidableEq, Repr

inductive Setting
  | pointer
  | filter
  | root
  | moduleName
  | out
  deriving DecidableEq, Repr

/-- Values are texts of any length, but files have names. -/
def Setting.accepts : Setting → String → Bool
  | out, value => !value.isEmpty
  | _, _ => true

def Subcommand.setting? (subcommand : Subcommand) : String → Option Setting
  | "json-pointer" => some .pointer
  | "jq-expr" => some .filter
  | "root" => some .root
  | "out" => some .out
  | "module" =>
    match subcommand with
    | .elm => some .moduleName
    | .artifacts => none
  | _ => none

structure Given where
  input : Option String := none
  parallel : Bool := false
  settings : List (Setting × String) := []

namespace Given

/-- Gives a setting its value, once. -/
def set (given : Given) (setting : Setting) (value : String) : Option Given :=
  if (given.settings.lookup setting).isSome || !setting.accepts value then none
  else some { given with settings := (setting, value) :: given.settings }

def setInput (given : Given) (input : String) : Option Given :=
  if given.input.isSome || input.isEmpty then none else some { given with input }

def setParallel (given : Given) : Option Given :=
  if given.parallel then none else some { given with parallel := true }

def request (given : Given) (subcommand : Subcommand) : Request where
  output :=
    match subcommand with
    | .elm => .elm ((given.settings.lookup .moduleName).getD "Decoder")
    | .artifacts => .artifacts
  input := given.input
  pointer := given.settings.lookup .pointer
  filter := given.settings.lookup .filter
  options := ⟨(given.settings.lookup .root).getD Path.defaultRoot, given.parallel⟩
  out := given.settings.lookup .out

end Given

inductive Argument
  /-- Only inputs follow. -/
  | escape
  | long (name : String) (value : Option String)
  | short (letters : List Char)
  | plain (text : String)
  deriving DecidableEq, Repr

def Argument.ofText (text : String) : Argument :=
  match text.toList with
  | ['-', '-'] => escape
  | '-' :: '-' :: rest =>
    let name := String.ofList (rest.takeWhile (· ≠ '='))
    match rest.dropWhile (· ≠ '=') with
    | _ :: value => long name (some (String.ofList value))
    | [] => long name none
  | '-' :: letter :: letters => short (letter :: letters)
  | _ => plain text

/-- What a group of short options ends in. -/
inductive Group
  /-- All its letters have been taken. -/
  | done
  | out (value : Option String)
  | version
  | help
  | unknown
  deriving DecidableEq, Repr

/-- Reads short options; `v` may stand in front of any other. -/
def Group.ofLetters : List Char → Group
  | [] => done
  | 'v' :: rest => ofLetters rest
  | 'V' :: _ => version
  | 'h' :: _ => help
  | 'o' :: '=' :: value => out (some (String.ofList value))
  | 'o' :: [] => out none
  | 'o' :: value => out (some (String.ofList value))
  | _ => unknown

def readInputs (given : Given) : List String → Option Given
  | [] => some given
  | input :: rest => do readInputs (← given.setInput input) rest

def isValue (text : String) : Bool :=
  match Argument.ofText text with
  | .plain _ => true
  | _ => false

def readOptions (subcommand : Subcommand) (given : Given) : List String → Option Invocation
  | [] => some (.run (given.request subcommand))
  | argument :: rest =>
    match Argument.ofText argument with
    | .escape => (readInputs given rest).map fun given => .run (given.request subcommand)
    | .plain input => do readOptions subcommand (← given.setInput input) rest
    | .long "verbose" none => readOptions subcommand given rest
    | .long "parallel" none => do readOptions subcommand (← given.setParallel) rest
    | .long "help" none => some .help
    | .long name value => do
      let setting ← subcommand.setting? name
      match value, rest with
      | some value, rest => readOptions subcommand (← given.set setting value) rest
      | none, value :: rest =>
        if isValue value then readOptions subcommand (← given.set setting value) rest else none
      | none, [] => none
    | .short letters =>
      match Group.ofLetters letters, rest with
      | .done, rest => readOptions subcommand given rest
      | .help, _ => some .help
      | .out (some value), rest => do readOptions subcommand (← given.set .out value) rest
      | .out none, value :: rest =>
        if isValue value then do readOptions subcommand (← given.set .out value) rest else none
      | _, _ => none

/-- Help is given on the whole command or on one subcommand. -/
def readHelp : List String → Option Invocation
  | [] | ["elm"] | ["artifacts"] | ["help"] => some .help
  | _ => none

/-- A whole command line; nothing for a usage error. -/
def Invocation.ofArguments? : List String → Option Invocation
  | [] => none
  | "elm" :: rest => readOptions .elm {} rest
  | "artifacts" :: rest => readOptions .artifacts {} rest
  | "help" :: rest => readHelp rest
  | argument :: rest =>
    match Argument.ofText argument with
    | .long "verbose" none => ofArguments? rest
    | .long "version" none => some version
    | .long "help" none => some help
    | .short letters =>
      match Group.ofLetters letters with
      | .done => ofArguments? rest
      | .version => some version
      | .help => some help
      | _ => none
    | _ => none

end ElmCodec.Command
