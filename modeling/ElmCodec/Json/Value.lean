import ElmCodec.Json.Double

/-!
# JSON values

Members of an object keep the order in which they were written. Integers that
fit 64 bits stay integers; every other number is a double.
-/

namespace ElmCodec

inductive Number
  | integer (value : Int)
  | double (value : Double)
  deriving DecidableEq, Repr

def Number.toDouble : Number → Double
  | .integer value => Double.ofInt value
  | .double value => value

inductive Json
  | null
  | boolean (value : Bool)
  | number (value : Number)
  | string (text : String)
  | list (items : List Json)
  | object (members : List (String × Json))
  deriving BEq, Repr, Inhabited

end ElmCodec
