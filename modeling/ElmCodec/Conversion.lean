import ElmCodec.Elm.Artifacts
import ElmCodec.Json.Reader

/-!
# Conversion

From one JSON document to the Elm types, decoders and encoders of its values.
A document is refused when its text is not JSON or when its names would not
compile; generation itself cannot fail.
-/

namespace ElmCodec

inductive ConversionFault
  | text (fault : Json.Fault)
  | names (fault : NameFault)
  deriving DecidableEq, Repr

def ConversionFault.message : ConversionFault → String
  | text fault => fault.message
  | names fault => fault.message

structure Options where
  /-- The label of the document's root. -/
  root : String := Path.defaultRoot
  /-- Whether the three lists are made at the same time. -/
  parallel : Bool := false
  deriving DecidableEq, Repr

namespace Artifacts

def ofJson (options : Options) (value : Json) : Except NameFault Artifacts := do
  let root := Node.annotate (.ofRoot options.root) value
  NameCheck.run root
  let program := if options.parallel then Program.ofNodeParallel root else Program.ofNode root
  return program.artifacts

def ofText (options : Options) (text : String) : Except ConversionFault Artifacts := do
  let value ← (Json.read text).mapError .text
  (ofJson options value).mapError .names

end Artifacts

end ElmCodec
