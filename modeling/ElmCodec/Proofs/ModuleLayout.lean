import ElmCodec.Proofs.Closed
import ElmCodec.Proofs.Lines
import ElmCodec.Proofs.RootNames

/-!
# Layout of modules

Whatever the keys of a document, every line of its declarations is indented, blank,
or a declaration head, and a module is split into its fragments again where there
are two blank lines.
-/

namespace ElmCodec

-- ---------------------------------------------------------------------------
-- Expressions
-- ---------------------------------------------------------------------------

theorem Node.oneLine_names (node : Node) : ∀ type ∈ node.label.names, OneLine type := by
  have htype : ∀ {path : Path}, ∀ type ∈ [typeName path], OneLine type :=
    List.forall_mem_singleton.mpr (.of_alphanumeric (alphanumeric_typeName _))
  induction node using Node.inductFirst with
  | scalar path value => simp [label]
  | object path members => exact htype
  | empty path => simp [label_list_nil]
  | mixed path first rest hm =>
    rw [label_list_mixed path hm]
    exact htype
  | uniform path first rest hm ih =>
    rw [label_list_uniform path hm]
    exact ih

theorem Decoder.oneLine_text {decoder : Decoder} (h : ∀ type ∈ decoder.references, OneLine type) :
    OneLine decoder.text := by
  induction decoder with
  | named type => exact oneLine_append.mpr ⟨by decide, h type List.mem_cons_self⟩
  | list item ih =>
    unfold text
    simp +decide only [oneLine_append, ih h, and_self]
  | _ => decide

theorem Encoder.oneLine_text {encoder : Encoder} (h : ∀ type ∈ encoder.references, OneLine type) :
    OneLine encoder.text := by
  induction encoder with
  | named type => exact oneLine_append.mpr ⟨by decide, h type List.mem_cons_self⟩
  | list item ih =>
    unfold text
    simp +decide only [oneLine_append, ih h, and_self]
  | _ => decide

theorem Decoder.oneLine_ofNode (node : Node) : OneLine (ofNode node).text :=
  oneLine_text (references_ofNode node ▸ node.oneLine_names)

theorem Encoder.oneLine_ofNode (node : Node) : OneLine (ofNode node).text :=
  oneLine_text (references_ofNode node ▸ node.oneLine_names)

-- ---------------------------------------------------------------------------
-- Bodies
-- ---------------------------------------------------------------------------

namespace DecoderBody

theorem oneLine_mapText (arity : Nat) : OneLine (mapText arity) := by
  unfold mapText
  split
  · decide
  · exact oneLine_append.mpr ⟨by decide, oneLine_toString arity⟩

theorem oneLine_fieldText (key : String) {decoder : Decoder} (h : OneLine decoder.text) :
    OneLine (fieldText (key, decoder)) := by
  unfold fieldText
  simp +decide only [oneLine_append, oneLine_literal, h, and_self]

theorem oneLine_alternativeText (hc : OneLine constructor) {decoder : Decoder}
    (h : OneLine decoder.text) : OneLine (alternativeText (constructor, decoder)) := by
  unfold alternativeText
  simp +decide only [oneLine_append, hc, h, and_self]

theorem hanging_ofFields (hc : OneLine constructor) {fields : List (String × Decoder)}
    (h : ∀ field ∈ fields, OneLine field.2.text) : Hanging (ofFields constructor fields).text := by
  have hmark : ∀ mark, OneLine mark ∧ Indented mark →
      ∀ line ∈ fields.map (mark ++ fieldText ·), IsLine line := by
    intro mark hm line hline
    obtain ⟨field, hf, rfl⟩ := List.mem_map.mp hline
    exact .behind hm (oneLine_fieldText field.1 (h field hf))
  unfold ofFields
  split
  · exact .oneLine (by decide)
  · split
    · refine .lines ?_ (hmark _ (by decide))
      simp +decide only [oneLine_append, oneLine_mapText, hc, and_self]
    · exact .lines (oneLine_append.mpr ⟨by decide, hc⟩) (hmark _ (by decide))

theorem hanging_oneOf {alternatives : List (String × Decoder)}
    (h : ∀ a ∈ alternatives, OneLine a.1 ∧ OneLine a.2.text) :
    Hanging (oneOf alternatives).text := by
  refine .closed (by decide) (IsLine.marked (by decide) (by decide) fun entry he => ?_)
  obtain ⟨a, ha, rfl⟩ := List.mem_map.mp he
  exact oneLine_alternativeText (h a ha).1 (h a ha).2

end DecoderBody

namespace EncoderBody

theorem oneLine_fieldText {field : FieldEncoder} (hi : OneLine field.identifier)
    (he : OneLine field.encoder.text) : OneLine (fieldText field) := by
  unfold fieldText
  simp +decide only [oneLine_append, oneLine_literal, hi, he, and_self]

theorem hanging_ofFields {fields : List FieldEncoder}
    (h : ∀ field ∈ fields, OneLine field.identifier ∧ OneLine field.encoder.text) :
    Hanging (ofFields fields).text := by
  unfold ofFields
  split
  · exact .oneLine (by decide)
  · refine .closed (by decide) (IsLine.marked (by decide) (by decide) fun entry he => ?_)
    obtain ⟨field, hf, rfl⟩ := List.mem_map.mp he
    exact oneLine_fieldText (h field hf).1 (h field hf).2

def patternLine (branch : String × Encoder) : String := "        " ++ (branch.1 ++ " payload ->")

def payloadLine (branch : String × Encoder) : String :=
  "            " ++ (branch.2.text ++ " payload")

theorem text_branch (branch : String × Encoder) :
    "        " ++ branchText branch = patternLine branch ++ ("\n" ++ payloadLine branch) := by
  have hbreak : " payload ->\n            " = " payload ->" ++ ("\n" ++ "            ") := rfl
  unfold branchText patternLine payloadLine
  simp only [hbreak, String.append_assoc]

theorem isLine_patternLine {branch : String × Encoder} (h : OneLine branch.1) :
    IsLine (patternLine branch) :=
  .behind (by decide) (oneLine_append.mpr ⟨h, by decide⟩)

theorem isLine_payloadLine {branch : String × Encoder} (h : OneLine branch.2.text) :
    IsLine (payloadLine branch) :=
  .behind (by decide) (oneLine_append.mpr ⟨h, by decide⟩)

theorem laid_branches (hl : IsLine line) {branches : List (String × Encoder)}
    (h : ∀ branch ∈ branches, OneLine branch.1 ∧ OneLine branch.2.text) :
    Laid (line ++ Layout.lines ((branches.map branchText).map ("\n        " ++ ·))) := by
  induction branches generalizing line with
  | nil =>
    rw [List.map_nil, List.map_nil, Layout.lines_nil, String.append_empty]
    exact .last hl
  | cons branch rest ih =>
    obtain ⟨⟨hc, he⟩, hrest⟩ := List.forall_mem_cons.mp h
    have hblank : "\n" ++ ("\n        " ++ branchText branch) =
        "\n\n" ++ ("        " ++ branchText branch) := by
      rw [← String.append_assoc, ← String.append_assoc]
      rfl
    rw [List.map_cons, List.map_cons, Layout.lines_cons, hblank, text_branch, String.append_assoc,
      String.append_assoc, String.append_assoc]
    exact .blank hl (.cons (isLine_patternLine hc) (ih (isLine_payloadLine he) hrest))

theorem hanging_cases {branches : List (String × Encoder)}
    (h : ∀ branch ∈ branches, OneLine branch.1 ∧ OneLine branch.2.text) :
    Hanging (cases branches).text := by
  intro start hs
  have hfirst : IsLine (start ++ "case value of") := .behind hs (by decide)
  cases branches with
  | nil => exact .last hfirst
  | cons branch rest =>
    obtain ⟨⟨hc, he⟩, hrest⟩ := List.forall_mem_cons.mp h
    have h := Laid.cons hfirst (.cons (isLine_patternLine hc)
      (laid_branches (isLine_payloadLine he) hrest))
    change Laid (start ++ ("case value of" ++ Layout.lines (("        " ++ branchText branch) ::
      (rest.map branchText).map ("\n        " ++ ·))))
    rw [Layout.lines_cons, text_branch]
    simpa only [String.append_assoc] using h

theorem arguments_mem (body : EncoderBody) : body.arguments ∈ ["", " _", " record", " value"] := by
  cases body with
  | empty => exact .tail _ (.head _)
  | object => exact .tail _ (.tail _ (.head _))
  | cases => exact .tail _ (.tail _ (.tail _ (.head _)))
  | expression => exact .head _

end EncoderBody

-- ---------------------------------------------------------------------------
-- Declarations
-- ---------------------------------------------------------------------------

theorem Laid.definition (hs : IsHead signature) (he : IsHead equation) (hb : Hanging body) :
    Laid (signature ++ ("\n" ++ (equation ++ ("\n" ++ ("    " ++ body))))) :=
  .cons (.head hs) (.cons (.head he) (hb "    " (by decide)))

theorem DecoderDecl.laid {decl : DecoderDecl} (hn : isTypeName decl.name = true)
    (hl : ∀ type ∈ decl.type.names, isTypeName type = true) (hb : Hanging decl.body.text) :
    Laid decl.text := by
  have hequation : " =\n    " = " =" ++ ("\n" ++ "    ") := rfl
  have h := Laid.definition (.decoderType hn hl) (.decoder hn) hb
  unfold text
  simpa only [hequation, String.append_assoc] using h

theorem EncoderDecl.laid {decl : EncoderDecl} (hn : isTypeName decl.name = true)
    (hl : ∀ type ∈ decl.type.names, isTypeName type = true) (hb : Hanging decl.body.text) :
    Laid decl.text := by
  have hsignature : " -> Json.Encode.Value\n" = " -> Json.Encode.Value" ++ "\n" := rfl
  have hequation : " =\n    " = " =" ++ ("\n" ++ "    ") := rfl
  have h := Laid.definition (.encoderType hn hl) (.encoder hn decl.body.arguments_mem) hb
  unfold text
  simpa only [hsignature, hequation, String.append_assoc] using h

theorem TypeDecl.oneLine_fieldText {field : String × Label} (hf : OneLine field.1)
    (hl : OneLine field.2.text) : OneLine (fieldText field) := by
  unfold fieldText
  simp +decide only [oneLine_append, hf, hl, and_self]

theorem TypeDecl.oneLine_variantText {variant : String × Label} (hv : OneLine variant.1)
    (hl : OneLine variant.2.atom) : OneLine (variantText variant) := by
  unfold variantText
  simp +decide only [oneLine_append, hv, hl, and_self]

theorem TypeDecl.laid_record {name : String} (hn : isTypeName name = true)
    {fields : List (String × Label)}
    (h : ∀ field ∈ fields, OneLine field.1 ∧ OneLine field.2.text) :
    Laid (record name fields).text := by
  cases fields with
  | nil =>
    have hbreak : " =\n    \x7b\x7d" = " =" ++ Layout.lines ["    \x7b\x7d"] := rfl
    change Laid ("type alias " ++ name ++ " =\n    \x7b\x7d")
    rw [hbreak, ← String.append_assoc]
    exact .lines (.head (.record hn)) (List.forall_mem_singleton.mpr (.body (by decide) (by decide)))
  | cons field rest =>
    have hclosing : IsLine "    \x7d" := .body (by decide) (by decide)
    refine .closed (.head (.record hn)) ?_ hclosing
    refine IsLine.marked (by decide) (by decide) fun entry he => ?_
    obtain ⟨field, hf, rfl⟩ := List.mem_map.mp he
    exact oneLine_fieldText (h field hf).1 (h field hf).2

theorem TypeDecl.laid_union {name : String} (hn : isTypeName name = true)
    {variants : List (String × Label)}
    (h : ∀ variant ∈ variants, OneLine variant.1 ∧ OneLine variant.2.atom) :
    Laid (union name variants).text := by
  refine .lines (.head (.union hn)) (IsLine.marked (by decide) (by decide) fun entry he => ?_)
  obtain ⟨variant, hv, rfl⟩ := List.mem_map.mp he
  exact oneLine_variantText (h variant hv).1 (h variant hv).2

-- ---------------------------------------------------------------------------
-- Programs
-- ---------------------------------------------------------------------------

structure Shape.Tidy (shape : Shape) : Prop where
  declares : ∀ name ∈ shape.declares, isTypeName name = true
  identifiers : ∀ field ∈ shape.fields, OneLine field.identifier
  labelled : shape.Labelled

theorem Shape.oneLine_identifier {node : Node} (h : shape ∈ node.shapes) :
    ∀ field ∈ shape.fields, OneLine field.identifier := by
  obtain ⟨part, -, hp⟩ := List.mem_filterMap.mp h
  cases part with
  | scalar path value => cases hp
  | list path items =>
    obtain ⟨-, rfl⟩ := Node.ofItems_of_shape? hp
    exact nofun
  | object path members =>
    obtain rfl := Option.some.inj hp
    intro f hf
    obtain ⟨m, -, rfl⟩ := List.mem_map.mp hf
    exact oneLine_fieldName m.1

theorem Shape.tidy_of_mem (hc : Checked root) (h : shape ∈ root.shapes) : shape.Tidy where
  declares name hn := (hc.declarable name (List.mem_flatMap.mpr ⟨shape, h, hn⟩)).1
  identifiers := oneLine_identifier h
  labelled := labelled_of_mem h

namespace Shape.Tidy

theorem oneLine_constructor {name : String} {path : Path} {variants : List Variant}
    (h : (Shape.sum name path variants).Tidy) (hv : variant ∈ variants) :
    OneLine variant.constructor :=
  .of_isTypeName (h.declares _ (List.mem_cons_of_mem _ (List.mem_map_of_mem hv)))

theorem isTypeName_name (h : Tidy shape) : isTypeName shape.name = true :=
  h.declares _ shape.name_mem_declares

theorem type (h : Tidy shape) : Laid (TypeDecl.ofShape shape).text := by
  have hn := h.isTypeName_name
  cases shape with
  | record name path fields =>
    refine TypeDecl.laid_record hn (List.forall_mem_map.mpr fun field hf => ?_)
    rw [h.labelled field hf]
    exact ⟨h.identifiers field hf, Label.oneLine_text field.node.oneLine_names⟩
  | sum name path variants =>
    refine TypeDecl.laid_union hn (List.forall_mem_map.mpr fun variant hv => ?_)
    rw [h.labelled variant hv]
    exact ⟨h.oneLine_constructor hv, Label.oneLine_atom variant.exemplar.oneLine_names⟩

theorem decoder (h : Tidy shape) : Laid (DecoderDecl.ofShape shape).text := by
  have hn := h.isTypeName_name
  cases shape with
  | record name path fields =>
    refine DecoderDecl.laid hn (List.forall_mem_singleton.mpr hn) ?_
    exact DecoderBody.hanging_ofFields (.of_isTypeName hn)
      (List.forall_mem_map.mpr fun field _ => Decoder.oneLine_ofNode field.node)
  | sum name path variants =>
    refine DecoderDecl.laid hn (List.forall_mem_singleton.mpr hn) ?_
    exact DecoderBody.hanging_oneOf (List.forall_mem_map.mpr fun variant hv =>
      ⟨h.oneLine_constructor hv, Decoder.oneLine_ofNode variant.exemplar⟩)

theorem encoder (h : Tidy shape) : Laid (EncoderDecl.ofShape shape).text := by
  have hn := h.isTypeName_name
  cases shape with
  | record name path fields =>
    refine EncoderDecl.laid hn (List.forall_mem_singleton.mpr hn) ?_
    exact EncoderBody.hanging_ofFields (List.forall_mem_map.mpr fun field hf =>
      ⟨h.identifiers field hf, Encoder.oneLine_ofNode field.node⟩)
  | sum name path variants =>
    refine EncoderDecl.laid hn (List.forall_mem_singleton.mpr hn) ?_
    exact EncoderBody.hanging_cases (List.forall_mem_map.mpr fun variant hv =>
      ⟨h.oneLine_constructor hv, Encoder.oneLine_ofNode variant.exemplar⟩)

end Shape.Tidy

namespace Program

variable {path : Path} {json : Json}

theorem isTypeName_of_label (hc : Checked (.annotate path json)) :
    ∀ type ∈ (Node.annotate path json).label.names, isTypeName type = true := by
  intro type ht
  obtain ⟨shape, hs, rfl⟩ := List.mem_map.mp (Node.mem_names_shapes ht)
  exact (Shape.tidy_of_mem hc hs).isTypeName_name

theorem laid_document (hc : Checked (.annotate path json))
    (h : (ofNode (.annotate path json)).document = some codec) :
    Laid codec.decoder.text ∧ Laid codec.encoder.text := by
  have hcodec : (Node.annotate path json).documentCodec = some codec := h
  unfold Node.documentCodec at hcodec
  split at hcodec
  · cases hcodec
  · cases hcodec
    have hn : isTypeName documentName = true := by decide
    have hl := isTypeName_of_label hc
    exact ⟨DecoderDecl.laid hn hl (.oneLine (Decoder.oneLine_ofNode _)),
      EncoderDecl.laid hn hl (.oneLine (Encoder.oneLine_ofNode _))⟩

theorem laid_fragments (hc : Checked (.annotate path json)) :
    ∀ fragment ∈ (ofNode (.annotate path json)).artifacts.fragments, Laid fragment := by
  intro fragment hf
  simp only [Artifacts.fragments, artifacts, List.mem_append, types_ofNode, decoders_ofNode,
    encoders_ofNode, List.map_map, List.mem_map, Option.mem_toList, Option.map_eq_some_iff] at hf
  rcases hf with (((⟨shape, hs, rfl⟩ | ⟨shape, hs, rfl⟩) | ⟨_, ⟨codec, hd, rfl⟩, rfl⟩) |
    ⟨shape, hs, rfl⟩) | ⟨_, ⟨codec, hd, rfl⟩, rfl⟩
  · exact (Shape.tidy_of_mem hc hs).type
  · exact (Shape.tidy_of_mem hc hs).decoder
  · exact (laid_document hc hd).1
  · exact (Shape.tidy_of_mem hc hs).encoder
  · exact (laid_document hc hd).2

theorem fragments_ne_nil : (ofNode (.annotate path json)).artifacts.fragments ≠ [] := by
  cases json with
  | object members =>
    have hshape : (Node.annotate path (.object members)).shape? =
        some (.ofMembers path (Node.annotateMembers path members)) := rfl
    obtain ⟨after, hshapes⟩ := Node.exists_shapes_eq_cons hshape
    simp [Artifacts.fragments, artifacts, hshapes]
  | _ => simp [Artifacts.fragments, artifacts, ofNode, assemble, Node.documentCodec, Node.annotate,
      Node.isRecord]

end Program

namespace Artifacts

theorem join_fragments (first : String) (rest : List String) :
    String.join ((first :: rest).map fun fragment => "\n\n" ++ fragment ++ "\n") =
      "\n\n" ++ "\n\n\n".intercalate (first :: rest) ++ "\n" := by
  induction rest generalizing first with
  | nil =>
    rw [String.intercalate_singleton, List.map_singleton, String.join_cons]
    exact String.append_empty
  | cons second rest ih =>
    have hgap : "\n\n\n" = "\n" ++ "\n\n" := rfl
    rw [List.map_cons, String.join_cons, ih, String.intercalate_cons_cons]
    simp only [hgap, String.append_assoc]

theorem render_of_ne_nil {artifacts : Artifacts} (h : artifacts.fragments ≠ [])
    (moduleName : String) : artifacts.render moduleName =
      header moduleName ++ "\n\n" ++ "\n\n\n".intercalate artifacts.fragments ++ "\n" := by
  obtain ⟨first, rest, hfragments⟩ := List.exists_cons_of_ne_nil h
  rw [render, hfragments, join_fragments]
  simp only [String.append_assoc]

/-- A module is its header and its fragments, with a gap between any two of them: it
is split into them at its gaps. Whatever the keys of a document, its fragments are
blocks of lines that are indented, blank, or heads. -/
theorem blocks_render (h : ofJson options value = .ok artifacts) (moduleName : String) :
    ∃ body, artifacts.render moduleName = header moduleName ++ "\n\n" ++ body ++ "\n" ∧
      Text.blocks body = artifacts.types ++ artifacts.decoders ++
        artifacts.root.document.toList.map (·.decoder) ++ artifacts.encoders ++
        artifacts.root.document.toList.map (·.encoder) ∧
      ∀ fragment ∈ Text.blocks body, Text.IsBlock fragment.toList ∧
        ∀ line ∈ Text.parts '\n' fragment, Indented line ∨ line = "" ∨ IsHead line := by
  obtain ⟨hc, rfl⟩ := ofJson_ok h
  have hlaid := Program.laid_fragments hc
  have hblocks := Text.blocks_intercalate Program.fragments_ne_nil
    fun fragment hf => (hlaid fragment hf).isBlock
  refine ⟨_, render_of_ne_nil Program.fragments_ne_nil moduleName, hblocks, ?_⟩
  rw [hblocks]
  exact fun fragment hf => ⟨(hlaid fragment hf).isBlock, (hlaid fragment hf).parts⟩

/-- A text and a null in a list, under a key with line breaks: a record and a sum type,
each with a decoder and an encoder. -/
theorem blocks_render_breaks : ∃ artifacts body,
    ofJson {} (.object [("a\n\n\nb", .list [.string "x", .null])]) = .ok artifacts ∧
      artifacts.render "Main" = header "Main" ++ "\n\n" ++ body ++ "\n" ∧
      (Text.blocks body).length = 6 ∧ ∀ fragment ∈ Text.blocks body, Text.IsBlock fragment.toList ∧
        ∀ line ∈ Text.parts '\n' fragment, Indented line ∨ line = "" ∨ IsHead line := by
  have h : ofJson {} (.object [("a\n\n\nb", .list [.string "x", .null])]) =
      .ok (Program.ofJson {} (.object [("a\n\n\nb", .list [.string "x", .null])])).artifacts := rfl
  obtain ⟨body, hrender, hblocks, hlaid⟩ := blocks_render h "Main"
  exact ⟨_, body, h, hrender, (congrArg List.length hblocks).trans rfl, hlaid⟩

end Artifacts

end ElmCodec
