import ElmCodec.Elm.Program
import ElmCodec.Json.Value

/-!
# Artifacts

The text of a generated program: one fragment for each declaration, the label
and the expressions of the document's root, and a complete Elm module.
-/

namespace ElmCodec

structure DocumentText where
  decoder : String
  encoder : String
  deriving DecidableEq, Repr

structure RootText where
  label : String
  decoder : String
  encoder : String
  document : Option DocumentText
  deriving DecidableEq, Repr

structure Artifacts where
  types : List String
  decoders : List String
  encoders : List String
  root : RootText
  deriving DecidableEq, Repr

def DocumentCodec.text (codec : DocumentCodec) : DocumentText where
  decoder := codec.decoder.text
  encoder := codec.encoder.text

def Program.artifacts (program : Program) : Artifacts where
  types := program.types.map TypeDecl.text
  decoders := program.decoders.map DecoderDecl.text
  encoders := program.encoders.map EncoderDecl.text
  root :=
    { label := program.label.text
      decoder := program.decoder.text
      encoder := program.encoder.text
      document := program.document.map DocumentCodec.text }

namespace Artifacts

def fragments (artifacts : Artifacts) : List String :=
  let document := artifacts.root.document.toList
  artifacts.types ++ artifacts.decoders ++ document.map (·.decoder) ++
    artifacts.encoders ++ document.map (·.encoder)

def header (moduleName : String) : String :=
  "module " ++ moduleName ++ " exposing (..)\n\nimport Json.Decode\nimport Json.Encode\n"

/-- A module that exposes everything. Two blank lines stand before each fragment. -/
def render (artifacts : Artifacts) (moduleName : String) : String :=
  header moduleName ++
    String.join (artifacts.fragments.map fun fragment => "\n\n" ++ fragment ++ "\n")

def texts (fragments : List String) : Json := .list (fragments.map .string)

def toJson (artifacts : Artifacts) : Json :=
  let document := artifacts.root.document.map fun document =>
    ("document", .object [("decoder", .string document.decoder), ("encoder", .string document.encoder)])
  .object [
    ("types", texts artifacts.types),
    ("decoders", texts artifacts.decoders),
    ("encoders", texts artifacts.encoders),
    ("root", .object ([
      ("label", .string artifacts.root.label),
      ("decoder", .string artifacts.root.decoder),
      ("encoder", .string artifacts.root.encoder)] ++ document.toList))]

end Artifacts

end ElmCodec
