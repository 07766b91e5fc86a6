import ElmCodec.Jq.Filter
import ElmCodec.Json.Members

/-!
# Outputs of filters

A failure takes the place of one output; the outputs after it still follow.
Where several parts of a filter have several outputs each, all combinations are
made, and the outputs of the first part change slowest.
-/

namespace ElmCodec.Jq

/-- One output: a value, or nothing for a failure. -/
abbrev Output := Option Value

namespace Output

def each (outputs : List (Option α)) (next : α → List (Option β)) : List (Option β) :=
  outputs.flatMap fun
    | some value => next value
    | none => [none]

def combine (make : α → β → Option γ) (first : List (Option α)) (second : List (Option β)) :
    List (Option γ) :=
  first.flatMap fun a => second.map fun b => do make (← a) (← b)

end Output

namespace Value

def fromEnd (index : Int) (size : Nat) : Int := if index < 0 then index + size else index

/-- The value at a key or index. Only arrays and objects have any; what is missing is null. -/
def access : Value → Value → Output
  | object members, string key => some ((members.lookup key).getD null)
  | array items, integer index =>
    let index := fromEnd index items.length
    some (if index < 0 then null else items.getD index.toNat null)
  | _, _ => none

def bound (size : Nat) (default : Nat) : Option Value → Option Nat
  | none => some default
  | some (integer index) => some (min (fromEnd index size).toNat size)
  | some _ => none

def between (lower upper : Nat) (items : List α) : List α := (items.take upper).drop lower

def stretch (value : Value) (lower upper : Option Value) : Output :=
  match value with
  | array items => do
    return array (between (← bound items.length 0 lower)
      (← bound items.length items.length upper) items)
  | string text => do
    let chars := text.toList
    return string (String.ofList (between (← bound chars.length 0 lower)
      (← bound chars.length chars.length upper) chars))
  | _ => none

def items : Value → List Output
  | array items => items.map some
  | object members => members.map fun member => some member.2
  | _ => [none]

def negate : Value → Output
  | integer value => some (wrapped (-value))
  | decimal text => some (double (nearestTo text).neg)
  | double value => some (double value.neg)
  | _ => none

/-- Items of an array or object, characters of a text, the magnitude of a number. -/
def length : Value → Output
  | null => some (integer 0)
  | boolean _ => none
  | integer value => some (wrapped value.natAbs)
  | decimal text => some (double (nearestTo text).abs)
  | double value => some (double value.abs)
  | string text => some (integer text.length)
  | array items => some (integer items.length)
  | object members => some (integer members.length)

def keys : Value → Output
  | array items => some (array ((List.range items.length).map fun index : Nat => integer index))
  | object members =>
    some (array ((Members.sort members).map fun member => string member.1))
  | _ => none

def join : Value → Value → Output
  | string first, string second => some (string (first ++ second))
  | _, _ => none

def member : Value → Value → Option (String × Value)
  | string key, value => some (key, value)
  | _, _ => none

end Value

def gather (outputs : List Output) : Output := (outputs.mapM id).map .array

/-- A step of a path whose key or bounds are known. -/
inductive Move
  | item (key : Value) (optional : Bool)
  | stretch (lower upper : Option Value) (optional : Bool)
  | items (optional : Bool)

namespace Move

def allowing (optional : Bool) (outputs : List Output) : List Output :=
  if optional then outputs.filter Option.isSome else outputs

def follow (value : Value) : Move → List Output
  | item key optional => allowing optional [value.access key]
  | stretch lower upper optional => allowing optional [value.stretch lower upper]
  | items optional => allowing optional value.items

def followAll : List Move → Value → List Output
  | [], value => [some value]
  | move :: rest, value => Output.each (move.follow value) (followAll rest)

end Move

namespace Filter

mutual

def run : Filter → Value → List Output
  | identity, input => [some input]
  | literal value, _ => [some value]
  | path target steps, input =>
    Output.each (target.run input) fun value =>
      Output.each (movesOf steps input) fun moves => Move.followAll moves value
  | pipe first second, input => Output.each (first.run input) fun value => second.run value
  | comma first second, input => first.run input ++ second.run input
  | array items, input => [gather (items.run input)]
  | object entries, input => (membersOf entries input).map fun members =>
      members.map fun members => .object (Members.ofWritten members)
  | negate operand, input => Output.each (operand.run input) fun value => [value.negate]
  | attempt operand, input => (operand.run input).filter Option.isSome
  | join first second, input =>
    Output.combine Value.join (first.run input) (second.run input)
  | inserted operand, input =>
    (operand.run input).map fun output => output.map fun value => .string value.insertedText
  | descend, input => input.descendants.map some
  | length, input => [input.length]
  | keys, input => [input.keys]
  | empty, _ => []
  | fail, _ => [none]
  | unknown .., _ => [none]

/-- The ways to take the steps of a path: one for each choice of keys and bounds. -/
def movesOf : List Step → Value → List (Option (List Move))
  | [], _ => [some []]
  | .item key optional :: rest, input =>
    Output.each (key.run input) fun key =>
      (movesOf rest input).map fun moves => moves.map (.item key optional :: ·)
  | .stretch lower upper optional :: rest, input =>
    Output.each (Output.combine (fun lower upper => some (lower, upper))
        (boundsOf lower input) (boundsOf upper input)) fun (lower, upper) =>
      (movesOf rest input).map fun moves => moves.map (.stretch lower upper optional :: ·)
  | .items optional :: rest, input =>
    (movesOf rest input).map fun moves => moves.map (.items optional :: ·)

/-- The values of a bound; a missing bound has no value. -/
def boundsOf : Option Filter → Value → List (Option (Option Value))
  | none, _ => [some none]
  | some bound, input => (bound.run input).map fun output => output.map some

def membersOf : List (Filter × Filter) → Value → List (Option (List (String × Value)))
  | [], _ => [some []]
  | (key, value) :: rest, input =>
    Output.combine (fun member members => some (member :: members))
      (Output.combine Value.member (key.run input) (value.run input)) (membersOf rest input)

end

end Filter

end ElmCodec.Jq
