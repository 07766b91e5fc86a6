/-!
# Faults of a JSON text

A fault has a cause, the place in the document whose value was being read, and
a position in the text. Lines are counted from one at line feeds; columns count
bytes since the last line feed, the offending byte included.
-/

namespace ElmCodec.Json

inductive Cause
  | endInValue
  | endInList
  | endInObject
  | endInString
  | expectedValue
  | expectedWord
  | expectedColon
  | expectedListSeparator
  | expectedObjectSeparator
  | keyNotString
  | trailingComma
  | trailingCharacters
  | invalidNumber
  | numberOutOfRange
  | invalidEscape
  | unfinishedSurrogatePair
  | loneSurrogate
  | controlCharacter
  | tooDeep
  deriving DecidableEq, Repr

def Cause.message : Cause → String
  | endInValue => "EOF while parsing a value"
  | endInList => "EOF while parsing a list"
  | endInObject => "EOF while parsing an object"
  | endInString => "EOF while parsing a string"
  | expectedValue => "expected value"
  | expectedWord => "expected ident"
  | expectedColon => "expected `:`"
  | expectedListSeparator => "expected `,` or `]`"
  | expectedObjectSeparator => "expected `,` or `\x7d`"
  | keyNotString => "key must be a string"
  | trailingComma => "trailing comma"
  | trailingCharacters => "trailing characters"
  | invalidNumber => "invalid number"
  | numberOutOfRange => "number out of range"
  | invalidEscape => "invalid escape"
  | unfinishedSurrogatePair => "unexpected end of hex escape"
  | loneSurrogate => "lone leading surrogate in hex escape"
  | controlCharacter => "control character (\\u0000-\\u001F) found while parsing a string"
  | tooDeep => "recursion limit exceeded"

/-- One step down a document; `unknown` stands for a key that could not be read. -/
inductive Step
  | key (name : String)
  | index (position : Nat)
  | unknown
  deriving DecidableEq, Repr

def Step.text : Step → String
  | key name => "." ++ name
  | index position => "[" ++ toString position ++ "]"
  | unknown => ".?"

def Step.headText : Step → String
  | key name => name
  | index position => "[" ++ toString position ++ "]"
  | unknown => "?"

/-- The place reached by these steps; the document itself is a dot. -/
def placeText : List Step → String
  | [] => "."
  | head :: rest => head.headText ++ String.join (rest.map Step.text)

structure Position where
  line : Nat
  column : Nat
  deriving DecidableEq, Repr

def byteCount : List Char → Nat
  | [] => 0
  | c :: rest => c.utf8Size + byteCount rest

/-- The position `offset` bytes after `start`, where `text` begins at `start`. -/
def Position.advance (start : Position) (offset : Nat) : List Char → Position
  | [] => start
  | c :: rest =>
    if offset < c.utf8Size then ⟨start.line, start.column + offset⟩
    else if c = '\n' then advance ⟨start.line + 1, 0⟩ (offset - c.utf8Size) rest
    else advance ⟨start.line, start.column + c.utf8Size⟩ (offset - c.utf8Size) rest

/-- A fault seen from inside the text: `unread` bytes follow its position. -/
structure Stop where
  cause : Cause
  steps : List Step
  unread : Nat
  deriving DecidableEq, Repr

/-- A fault found on the first byte of `rest`, or at the end of the text. -/
def Stop.on (cause : Cause) (rest : List Char) : Stop := ⟨cause, [], byteCount rest - 1⟩

def Stop.before (cause : Cause) (rest : List Char) : Stop := ⟨cause, [], byteCount rest⟩

def Stop.under (step : Step) (stop : Stop) : Stop := { stop with steps := step :: stop.steps }

structure Fault where
  cause : Cause
  steps : List Step
  position : Position
  deriving DecidableEq, Repr

def Stop.inText (stop : Stop) (text : List Char) : Fault :=
  ⟨stop.cause, stop.steps, Position.advance ⟨1, 0⟩ (byteCount text - stop.unread) text⟩

def Fault.place (fault : Fault) : String := placeText fault.steps

def Fault.detail (fault : Fault) : String :=
  fault.cause.message ++ " at line " ++ toString fault.position.line ++
    " column " ++ toString fault.position.column

def Fault.message (fault : Fault) : String :=
  "invalid JSON at " ++ fault.place ++ ": " ++ fault.detail

end ElmCodec.Json
