import ElmCodec.Jq.Value

/-!
# Filters of jq

The part of jq that selects and rebuilds: paths, pipes, commas, constructors,
literals and a few named filters. A filter turns one value into a sequence of
outputs, each a value or a failure.
-/

namespace ElmCodec.Jq

mutual

inductive Filter
  | identity
  | literal (value : Value)
  /-- What a path leads to from each output of a filter. -/
  | path (target : Filter) (steps : List Step)
  | pipe (first second : Filter)
  | comma (first second : Filter)
  | array (items : Filter)
  | object (entries : List (Filter × Filter))
  | negate (operand : Filter)
  /-- Leaves the failures out. -/
  | attempt (operand : Filter)
  /-- Two texts as one. -/
  | join (first second : Filter)
  /-- Texts as they are, other values as they are written. -/
  | inserted (operand : Filter)
  /-- A value, and then all that is below it. -/
  | descend
  | length
  | keys
  | empty
  /-- Fails on every value. -/
  | fail
  /-- A name, with its arguments, that stands for nothing. -/
  | unknown (name : String) (arguments : List Filter)

/-- A step of a path. One that is optional leads nowhere instead of failing. -/
inductive Step
  | item (key : Filter) (optional : Bool)
  /-- A stretch of an array or string; a missing bound is an end. -/
  | stretch (lower upper : Option Filter) (optional : Bool)
  | items (optional : Bool)

end

namespace Filter

def map (filter : Filter) : Filter := array (pipe (path identity [.items false]) filter)

/-- Fails with each output of a filter, and goes on with the input all the same. -/
def failing (messages : Filter) : Filter := comma (pipe messages fail) identity

def named (name : String) (arguments : List Filter) : Filter :=
  match name, arguments with
  | "null", [] => literal .null
  | "true", [] => literal (.boolean true)
  | "false", [] => literal (.boolean false)
  | "nan", [] => literal (.double .nan)
  | "infinite", [] => literal (.double .infinity)
  | "length", [] => length
  | "keys", [] => keys
  | "empty", [] => empty
  | "error", [] => failing identity
  | "error", [messages] => failing messages
  | "map", [filter] => map filter
  | name, arguments => unknown name arguments

mutual

def unknownNames : Filter → List String
  | identity | literal _ | descend | length | keys | empty | fail => []
  | path target steps => target.unknownNames ++ unknownInSteps steps
  | pipe first second | comma first second | join first second =>
    first.unknownNames ++ second.unknownNames
  | array operand | negate operand | attempt operand | inserted operand => operand.unknownNames
  | object entries => unknownInEntries entries
  | unknown name arguments => unknownInArguments arguments ++ [name]

def unknownInSteps : List Step → List String
  | [] => []
  | .item key _ :: rest => key.unknownNames ++ unknownInSteps rest
  | .stretch lower upper _ :: rest =>
    unknownInBound lower ++ unknownInBound upper ++ unknownInSteps rest
  | .items _ :: rest => unknownInSteps rest

def unknownInBound : Option Filter → List String
  | none => []
  | some bound => bound.unknownNames

def unknownInEntries : List (Filter × Filter) → List String
  | [] => []
  | (key, value) :: rest => key.unknownNames ++ value.unknownNames ++ unknownInEntries rest

def unknownInArguments : List Filter → List String
  | [] => []
  | argument :: rest => argument.unknownNames ++ unknownInArguments rest

end

end Filter

end ElmCodec.Jq
