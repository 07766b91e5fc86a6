import ElmCodec.Jq.Filter
import ElmCodec.Jq.Token

/-!
# Reading filters

Tokens are read with the usual precedences: a pipe binds weakest, then a comma,
then the steps of a path.
-/

namespace ElmCodec.Jq.Filter

/-- Names that start a construct which is not read here. -/
def keywords : List String := ["def", "if", "try", "label", "break", "reduce", "foreach"]

def directives : List String := ["module", "include", "import"]

def ofNumber (text : String) : Filter :=
  if text.toList.all Char.isDigit then literal (.ofInteger (Text.natOfDigits text.toList))
  else literal (.decimal text)

def member (key : Filter) : Filter := path identity [.item key false]

def ofText (text : String) : Filter := literal (.string text)

def withSteps (target : Filter) (steps : List Step) : Filter :=
  if steps.isEmpty then target else path target steps

def readOptional (tokens : List Token) : Bool × List Token :=
  let rest := tokens.dropWhile (· = .mark '?')
  (tokens.length ≠ rest.length, rest)

mutual

def readPipe : (fuel : Nat) → List Token → Option (Filter × List Token)
  | 0, _ => none
  | fuel + 1, tokens => do
    let (first, rest) ← readComma fuel tokens
    match rest with
    | .operator "|" :: rest => do
      let (second, rest) ← readPipe fuel rest
      return (pipe first second, rest)
    | rest => return (first, rest)

def readComma : (fuel : Nat) → List Token → Option (Filter × List Token)
  | 0, _ => none
  | fuel + 1, tokens => do
    let (first, rest) ← readTerm fuel tokens
    match rest with
    | .mark ',' :: rest => do
      let (second, rest) ← readComma fuel rest
      return (comma first second, rest)
    | rest => return (first, rest)

def readTerm : (fuel : Nat) → List Token → Option (Filter × List Token)
  | 0, _ => none
  | fuel + 1, tokens =>
    match tokens with
    | .operator "-" :: rest => do
      let (operand, rest) ← readTerm fuel rest
      return (negate operand, rest)
    | .operator ".." :: rest => readPath fuel descend rest
    | .mark '.' :: .string text :: rest => readPath fuel identity (.mark '.' :: .string text :: rest)
    | .mark '.' :: .quote :: rest => readPath fuel identity (.mark '.' :: .quote :: rest)
    | .mark '.' :: rest => readPath fuel identity rest
    | .field name :: rest => readPath fuel identity (.field name :: rest)
    | .number text :: rest => readPath fuel (ofNumber text) rest
    | .string text :: rest => readPath fuel (ofText text) rest
    | .quote :: rest => do
      let (text, rest) ← readPieces fuel (ofText "") rest
      readPath fuel text rest
    | .binding name :: rest => readPath fuel (unknown name []) rest
    | .format name :: rest => readPath fuel (unknown name []) rest
    | .mark '(' :: rest => do
      match ← readPipe fuel rest with
      | (filter, .mark ')' :: rest) => readPath fuel filter rest
      | _ => none
    | .mark '[' :: .mark ']' :: rest => readPath fuel (literal (.array [])) rest
    | .mark '[' :: rest => do
      match ← readPipe fuel rest with
      | (filter, .mark ']' :: rest) => readPath fuel (array filter) rest
      | _ => none
    | .mark '{' :: rest => do
      let (entries, rest) ← readEntries fuel rest
      readPath fuel (object entries) rest
    | .name name :: rest =>
      if keywords.contains name then none
      else
        match rest with
        | .mark '(' :: rest => do
          let (arguments, rest) ← readArguments fuel rest
          readPath fuel (named name arguments) rest
        | rest => readPath fuel (named name []) rest
    | _ => none

def readPath : (fuel : Nat) → Filter → List Token → Option (Filter × List Token)
  | 0, _, _ => none
  | fuel + 1, target, tokens =>
    match tokens with
    | .mark '?' :: rest => readPath fuel (attempt target) rest
    | tokens => do
      let (steps, rest) ← readSteps fuel tokens
      return (withSteps target steps, rest)

def readSteps : (fuel : Nat) → List Token → Option (List Step × List Token)
  | 0, _ => none
  | fuel + 1, tokens => do
    match ← readStep fuel tokens with
    | none => return ([], tokens)
    | some (step, rest) =>
      let (optional, rest) := readOptional rest
      let (steps, rest) ← readSteps fuel rest
      return (step optional :: steps, rest)

def readStep : (fuel : Nat) → List Token → Option (Option ((Bool → Step) × List Token))
  | 0, _ => none
  | fuel + 1, tokens =>
    match tokens with
    | .field name :: rest => some (some (.item (ofText name), rest))
    | .mark '.' :: .string text :: rest => some (some (.item (ofText text), rest))
    | .mark '.' :: .quote :: rest => do
      let (key, rest) ← readPieces fuel (ofText "") rest
      return some (.item key, rest)
    | .mark '[' :: .mark ']' :: rest => some (some (.items, rest))
    | .mark '[' :: .mark ':' :: rest => do
      match ← readPipe fuel rest with
      | (upper, .mark ']' :: rest) => return some (.stretch none (some upper), rest)
      | _ => none
    | .mark '[' :: rest => do
      match ← readPipe fuel rest with
      | (key, .mark ']' :: rest) => return some (.item key, rest)
      | (lower, .mark ':' :: .mark ']' :: rest) => return some (.stretch (some lower) none, rest)
      | (lower, .mark ':' :: rest) => do
        match ← readPipe fuel rest with
        | (upper, .mark ']' :: rest) => return some (.stretch (some lower) (some upper), rest)
        | _ => none
      | _ => none
    | _ => some none

/-- The pieces of a string up to its end, after `read`. -/
def readPieces : (fuel : Nat) → (read : Filter) → List Token → Option (Filter × List Token)
  | 0, _, _ => none
  | fuel + 1, read, tokens =>
    match tokens with
    | .quote :: rest => some (read, rest)
    | .string text :: rest => readPieces fuel (join read (ofText text)) rest
    | .mark '(' :: rest => do
      match ← readPipe fuel rest with
      | (filter, .mark ')' :: rest) => readPieces fuel (join read (inserted filter)) rest
      | _ => none
    | _ => none

def readArguments : (fuel : Nat) → List Token → Option (List Filter × List Token)
  | 0, _ => none
  | fuel + 1, tokens => do
    match ← readPipe fuel tokens with
    | (argument, .mark ';' :: rest) => do
      let (arguments, rest) ← readArguments fuel rest
      return (argument :: arguments, rest)
    | (argument, .mark ')' :: rest) => return ([argument], rest)
    | _ => none

/-- Entries up to the closing brace. A comma may stand after the last one. -/
def readEntries : (fuel : Nat) → List Token → Option (List (Filter × Filter) × List Token)
  | 0, _ => none
  | fuel + 1, tokens =>
    match tokens with
    | .mark '}' :: rest => some ([], rest)
    | tokens => do
      let (entry, rest) ← readEntry fuel tokens
      match rest with
      | .mark '}' :: rest => return ([entry], rest)
      | .mark ',' :: rest => do
        let (entries, rest) ← readEntries fuel rest
        return (entry :: entries, rest)
      | _ => none

/-- A key with its value. A key alone stands for the member of that name. -/
def readEntry : (fuel : Nat) → List Token → Option ((Filter × Filter) × List Token)
  | 0, _ => none
  | fuel + 1, tokens => do
    let (key, alone, rest) ← readKey fuel tokens
    match rest with
    | .mark ':' :: rest => do
      let (value, rest) ← readEntryValue fuel rest
      return ((key, value), rest)
    | rest => alone.map fun entry => (entry, rest)

def readKey : (fuel : Nat) → List Token →
    Option (Filter × Option (Filter × Filter) × List Token)
  | 0, _ => none
  | fuel + 1, tokens =>
    match tokens with
    | .name name :: rest =>
      if name.toList.contains ':' then none
      else some (ofText name, some (ofText name, member (ofText name)), rest)
    | .string text :: rest => some (ofText text, some (ofText text, member (ofText text)), rest)
    | .quote :: rest => do
      let (key, rest) ← readPieces fuel (ofText "") rest
      return (key, some (key, member key), rest)
    | .binding name :: rest =>
      some (unknown name [], some (ofText name, unknown name []), rest)
    | .mark '(' :: rest => do
      match ← readPipe fuel rest with
      | (key, .mark ')' :: rest) => return (key, none, rest)
      | _ => none
    | _ => none

def readEntryValue : (fuel : Nat) → List Token → Option (Filter × List Token)
  | 0, _ => none
  | fuel + 1, tokens => do
    let (first, rest) ← readTerm fuel tokens
    match rest with
    | .operator "|" :: rest => do
      let (second, rest) ← readEntryValue fuel rest
      return (pipe first second, rest)
    | rest => return (first, rest)

end

/-- A filter from its tokens. Every token takes a few nested calls at most. -/
def ofTokens? (tokens : List Token) : Option Filter := do
  match ← readPipe (8 * (tokens.length + 1)) tokens with
  | (filter, []) => return filter
  | _ => none

def parse? (text : String) : Option Filter := do
  match ← Token.ofText? text with
  | .name name :: tokens =>
    if directives.contains name then none else ofTokens? (.name name :: tokens)
  | tokens => ofTokens? tokens

end ElmCodec.Jq.Filter
