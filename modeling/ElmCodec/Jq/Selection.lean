import ElmCodec.Jq.Evaluation
import ElmCodec.Jq.Parser
import ElmCodec.Json.Reader

/-!
# Selecting a document by a filter

A filter has to turn a document into exactly one other. Its output is written
as JSON text and read again. Any engine can run the filter.
-/

namespace ElmCodec.Jq

inductive Fault
  | unreadable (filter : String)
  | unknownNames (filter : String) (names : List String)
  | failed (filter : String)
  | noDocument (filter : String)
  | severalDocuments (filter : String) (count : Nat)
  | notJson (text : String) (fault : Json.Fault)
  deriving DecidableEq, Repr

def Fault.message : Fault → String
  | unreadable filter => "cannot parse jq filter `" ++ filter ++ "`"
  | unknownNames filter names =>
    "jq filter `" ++ filter ++ "` uses undefined names: " ++ ", ".intercalate names
  | failed filter => "jq filter `" ++ filter ++ "` failed"
  | noDocument filter =>
    "jq filter `" ++ filter ++ "` produced no document, expected exactly one"
  | severalDocuments filter count =>
    "jq filter `" ++ filter ++ "` produced " ++ toString count ++
      " documents, expected exactly one"
  | notJson text fault => "jq output is not JSON: " ++ text ++ ": " ++ fault.detail

/-- What runs filters: for the text of a filter, its outputs for a document, as
JSON text. A failure is an output without one. -/
abbrev Engine := String → Except Fault (Json → List (Option String))

def Filter.engine : Engine := fun text =>
  match Filter.parse? text with
  | none => .error (.unreadable text)
  | some filter =>
    if !filter.unknownNames.isEmpty then .error (.unknownNames text filter.unknownNames)
    else .ok fun document => (filter.run (.ofJson document)).map (Option.map Value.text)

def only (filter : String) : List (Option String) → Except Fault String
  | [] => .error (.noDocument filter)
  | none :: _ => .error (.failed filter)
  | [some text] => .ok text
  | outputs => .error (.severalDocuments filter outputs.length)

def select (engine : Engine) (filter : String) (document : Json) : Except Fault Json := do
  let outputs ← engine filter
  let written ← only filter (outputs document)
  (Json.read written).mapError (.notJson written)

end ElmCodec.Jq
