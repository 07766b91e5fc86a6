import ElmCodec.Elm.Decoder
import ElmCodec.Elm.Encoder
import ElmCodec.Elm.TypeDecl
import ElmCodec.NameCheck

/-!
# Generated programs

All that is generated for a document: its type declarations, the definitions of
their decoders and encoders, and the way into the whole document. The three
lists come from one walk each and line up, declaration by declaration.
-/

namespace ElmCodec

/-- The definitions that read and write a document that is no record. -/
structure DocumentCodec where
  decoder : DecoderDecl
  encoder : EncoderDecl
  deriving DecidableEq, Repr

structure Program where
  types : List TypeDecl
  decoders : List DecoderDecl
  encoders : List EncoderDecl
  label : Label
  decoder : Decoder
  encoder : Encoder
  document : Option DocumentCodec
  deriving DecidableEq, Repr

namespace Program

def collect (make : Shape → α) (shape : Shape) : StateM (List α) Unit :=
  modify (· ++ [make shape])

def extend (make : Shape → α) (done : List α) (root : Node) : List α :=
  ((root.walk (collect make)).run done).2

end Program

namespace Node

def typeDecls (root : Node) : List TypeDecl := Program.extend TypeDecl.ofShape [] root

def decoderDecls (root : Node) : List DecoderDecl := Program.extend DecoderDecl.ofShape [] root

def encoderDecls (root : Node) : List EncoderDecl := Program.extend EncoderDecl.ofShape [] root

def documentCodec (root : Node) : Option DocumentCodec :=
  if root.isRecord then none
  else
    some {
      decoder := ⟨documentName, root.label, .expression (.ofNode root)⟩
      encoder := ⟨documentName, root.label, .expression (.ofNode root)⟩ }

end Node

namespace Program

def assemble (root : Node) (types : List TypeDecl) (decoders : List DecoderDecl)
    (encoders : List EncoderDecl) : Program where
  types
  decoders
  encoders
  label := root.label
  decoder := .ofNode root
  encoder := .ofNode root
  document := root.documentCodec

def ofNode (root : Node) : Program :=
  assemble root root.typeDecls root.decoderDecls root.encoderDecls

/-- The same program; the three lists are made at the same time. -/
def ofNodeParallel (root : Node) : Program :=
  let types := Task.spawn fun _ => root.typeDecls
  let decoders := Task.spawn fun _ => root.decoderDecls
  let encoders := Task.spawn fun _ => root.encoderDecls
  assemble root types.get decoders.get encoders.get

theorem ofNodeParallel_eq (root : Node) : ofNodeParallel root = ofNode root := rfl

end Program

end ElmCodec
