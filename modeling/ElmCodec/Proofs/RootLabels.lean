import ElmCodec.Proofs.Rerooted

/-!
# The root label names the root alone

In a document that passes the name check no declaration but the document's own
is at the root's path. So another label renames that declaration, with its
numbered constructors, and what refers to it: the root's expressions. A document
without a declaration of its own does not use its label.
-/

namespace ElmCodec

open List (Forall₂)

-- ---------------------------------------------------------------------------
-- Another name for the root's declaration
-- ---------------------------------------------------------------------------

/-- The entries behind the numbered constructors of the type called `name`. -/
def numbered (name : String) (entries : List (String × α)) : List (String × α) :=
  entries.mapIdx fun number entry => (name ++ toString number, entry.2)

def Label.withName (name : String) : Label → Label
  | named _ => named name
  | list item => list (item.withName name)
  | label => label

def Decoder.withName (name : String) : Decoder → Decoder
  | named _ => named name
  | list item => list (item.withName name)
  | decoder => decoder

def Encoder.withName (name : String) : Encoder → Encoder
  | named _ => named name
  | list item => list (item.withName name)
  | encoder => encoder

def TypeDecl.withName (name : String) : TypeDecl → TypeDecl
  | record _ fields => record name fields
  | union _ variants => union name (numbered name variants)

def DecoderBody.withName (name : String) : DecoderBody → DecoderBody
  | empty => empty
  | apply _ fields => apply name fields
  | pipe _ fields => pipe name fields
  | oneOf alternatives => oneOf (numbered name alternatives)
  | expression decoder => expression (decoder.withName name)

def DecoderDecl.withName (name : String) (decl : DecoderDecl) : DecoderDecl :=
  ⟨name, decl.type.withName name, decl.body.withName name⟩

def EncoderBody.withName (name : String) : EncoderBody → EncoderBody
  | empty => empty
  | object fields => object fields
  | cases branches => cases (numbered name branches)
  | expression encoder => expression (encoder.withName name)

def EncoderDecl.withName (name : String) (decl : EncoderDecl) : EncoderDecl :=
  ⟨name, decl.type.withName name, decl.body.withName name⟩

def DocumentCodec.withName (name : String) (codec : DocumentCodec) : DocumentCodec where
  decoder := { codec.decoder.withName name with name := codec.decoder.name }
  encoder := { codec.encoder.withName name with name := codec.encoder.name }

/-- The program with another name for its first declaration, which is the root's. -/
def Program.withName (name : String) (program : Program) : Program where
  types := program.types.modifyHead (·.withName name)
  decoders := program.decoders.modifyHead (·.withName name)
  encoders := program.encoders.modifyHead (·.withName name)
  label := program.label.withName name
  decoder := program.decoder.withName name
  encoder := program.encoder.withName name
  document := program.document.map (·.withName name)

theorem DecoderBody.withName_ofFields (name constructor : String)
    (fields : List (String × Decoder)) :
    (ofFields constructor fields).withName name = ofFields name fields := by
  unfold ofFields
  split
  · rfl
  · split <;> rfl

theorem EncoderBody.withName_ofFields (name : String) (fields : List FieldEncoder) :
    (ofFields fields).withName name = ofFields fields := by
  unfold ofFields
  split <;> rfl

namespace Shape

theorem numbered_variants (f : Label → Node → α) (name other : String)
    (parts : List (Label × Node)) :
    numbered other ((variants name 0 parts).map fun variant =>
        (variant.constructor, f variant.label variant.exemplar)) =
      (variants other 0 parts).map fun variant =>
        (variant.constructor, f variant.label variant.exemplar) := by
  simp [numbered, map_variants, List.mapIdx_mapIdx, Function.comp_def]

/-- The code of `b` is that of `a` under the name of `b`. -/
structure Renamed (a b : Shape) : Prop where
  type : TypeDecl.ofShape b = (TypeDecl.ofShape a).withName b.name
  decoder : DecoderDecl.ofShape b = (DecoderDecl.ofShape a).withName b.name
  encoder : EncoderDecl.ofShape b = (EncoderDecl.ofShape a).withName b.name

theorem Renamed.ofMembers (path other : Path) (members : List (String × Node)) :
    (ofMembers path members).Renamed (.ofMembers other members) where
  type := rfl
  decoder := by
    simp only [Shape.ofMembers, DecoderDecl.ofShape, DecoderDecl.withName,
      DecoderBody.withName_ofFields]
    rfl
  encoder := by
    simp only [Shape.ofMembers, EncoderDecl.ofShape, EncoderDecl.withName,
      EncoderBody.withName_ofFields]
    rfl

theorem Renamed.ofItems (path other : Path) (items : List Node) :
    (ofItems path items).Renamed (.ofItems other items) where
  type := by
    have hv := numbered_variants (fun label _ => label) (typeName path) (typeName other)
      (Node.representatives items)
    exact congrArg (TypeDecl.union (typeName other)) hv.symm
  decoder := by
    have hv := numbered_variants (fun _ exemplar => Decoder.ofNode exemplar) (typeName path)
      (typeName other) (Node.representatives items)
    exact congrArg (fun alternatives => DecoderDecl.mk (typeName other) (.named (typeName other))
      (.oneOf alternatives)) hv.symm
  encoder := by
    have hv := numbered_variants (fun _ exemplar => Encoder.ofNode exemplar) (typeName path)
      (typeName other) (Node.representatives items)
    exact congrArg (fun branches => EncoderDecl.mk (typeName other) (.named (typeName other))
      (.cases branches)) hv.symm

theorem Renamed.of_sameCode {a b c : Shape} (h : a.Renamed b) (hc : c.SameCode b) :
    a.Renamed c := by
  have hname : c.name = b.name := by rw [← TypeDecl.name_ofShape, hc.type, TypeDecl.name_ofShape]
  exact ⟨by rw [hc.type, h.type, hname], by rw [hc.decoder, h.decoder, hname],
    by rw [hc.encoder, h.encoder, hname]⟩

end Shape

-- ---------------------------------------------------------------------------
-- Documents of which only the root is at the root's path
-- ---------------------------------------------------------------------------

namespace Node

/-- All declarations of the tree but its own are below the root. -/
def PartsBelow (node : Node) : Prop := ∀ shape ∈ node.shapes.tail, shape.path.isRoot = false

theorem PartsBelow.item {path : Path} (h : (list path items).PartsBelow)
    (hm : isMixed items = true) : ∀ item ∈ items, item.DeclaresBelow := by
  intro item hi shape hs
  refine h shape ?_
  rw [shapes_mixed path hm, List.tail_cons]
  exact List.mem_flatMap.mpr ⟨item, hi, hs⟩

theorem PartsBelow.member {path : Path} (h : (object path members).PartsBelow) :
    ∀ m ∈ members, m.2.DeclaresBelow := by
  intro m hm shape hs
  refine h shape ?_
  rw [shapes_object, List.tail_cons]
  exact List.mem_flatMap.mpr ⟨m, Members.mem_sort.mpr hm, hs⟩

section
variable {node : Node} (root : String) (hs : node.hasShape = true) (h : node.PartsBelow)
include hs h

theorem shapes_renamed : ∃ shape renamed after rest,
    node.shapes = shape :: after ∧ (node.rerooted root).shapes = renamed :: rest ∧
      renamed.name = typeName (node.path.rerooted root) ∧ shape.Renamed renamed ∧
      Forall₂ Shape.SameCode rest after := by
  cases node with
  | scalar path value => simp [hasShape] at hs
  | list path items =>
    have hitems := h.item hs
    have hm := (isMixed_rerooted root hitems).trans hs
    refine ⟨_, _, _, _, shapes_mixed path hs, rerooted_list root path items ▸ shapes_mixed _ hm,
      rfl, ?_, ?_⟩
    · exact (Shape.Renamed.ofItems path _ items).of_sameCode
        (Shape.alike_ofItems_rerooted root _ hitems).sameCode
    · rw [List.flatMap_map]
      exact forall₂_flatMap_shapes _ fun item hi => shapes_rerooted root item (hitems item hi)
  | object path members =>
    refine ⟨_, _, _, _, shapes_object path members, rerooted_object root path members ▸
      shapes_object _ _, rfl, ?_, ?_⟩
    · exact (Shape.Renamed.ofMembers path _ members).of_sameCode
        (Shape.alike_ofMembers_rerooted root _ h.member).sameCode
    · rw [Members.sort_map fun m : String × Node => m.2.rerooted root, List.flatMap_map]
      exact forall₂_flatMap_shapes _ fun m hm =>
        shapes_rerooted root m.2 (h.member m (Members.mem_sort.mp hm))

theorem label_renamed :
    (node.rerooted root).label = node.label.withName (typeName (node.path.rerooted root)) := by
  cases node with
  | scalar path value => simp [hasShape] at hs
  | list path items =>
    rw [rerooted_list, label_list_mixed _ ((isMixed_rerooted root (h.item hs)).trans hs),
      label_list_mixed path hs]
    rfl
  | object path members =>
    rw [rerooted_object, label_object, label_object]
    rfl

theorem decoder_renamed : Decoder.ofNode (node.rerooted root) =
    (Decoder.ofNode node).withName (typeName (node.path.rerooted root)) := by
  cases node with
  | scalar path value => simp [hasShape] at hs
  | list path items =>
    have hm := (isMixed_rerooted root (h.item hs)).trans hs
    rw [rerooted_list]
    cases items with
    | nil => simp [hasShape] at hs
    | cons first rest =>
      rw [List.map_cons] at hm ⊢
      rw [Decoder.ofNode_mixed _ hm, Decoder.ofNode_mixed path hs]
      rfl
  | object path members =>
    rw [rerooted_object]
    rfl

theorem encoder_renamed : Encoder.ofNode (node.rerooted root) =
    (Encoder.ofNode node).withName (typeName (node.path.rerooted root)) := by
  cases node with
  | scalar path value => simp [hasShape] at hs
  | list path items =>
    have hm := (isMixed_rerooted root (h.item hs)).trans hs
    rw [rerooted_list]
    cases items with
    | nil => simp [hasShape] at hs
    | cons first rest =>
      rw [List.map_cons] at hm ⊢
      rw [Encoder.ofNode_mixed _ hm, Encoder.ofNode_mixed path hs]
      rfl
  | object path members =>
    rw [rerooted_object]
    rfl

theorem documentCodec_renamed : (node.rerooted root).documentCodec =
    node.documentCodec.map (·.withName (typeName (node.path.rerooted root))) := by
  simp only [documentCodec, isRecord_rerooted, label_renamed root hs h,
    decoder_renamed root hs h, encoder_renamed root hs h]
  split <;> rfl

end

end Node

theorem Program.extend_renamed (root : String) {path : Path} {json : Json}
    (hs : (Node.annotate path json).hasShape = true) (h : (Node.annotate path json).PartsBelow)
    {make : Shape → α} {rename : String → α → α}
    (hrenamed : ∀ a b, a.Renamed b → make b = rename b.name (make a))
    (hsame : ∀ a b, a.SameCode b → make a = make b) :
    extend make [] (.annotate (path.rerooted root) json) =
      (extend make [] (.annotate path json)).modifyHead
        (rename (typeName (path.rerooted root))) := by
  obtain ⟨shape, renamed, after, rest, hshapes, hrerooted, hname, hhead, hrest⟩ :=
    Node.shapes_renamed root hs h
  rw [← Node.annotate_rerooted] at hrerooted
  rw [Node.path_annotate] at hname
  rw [extend_annotate, extend_annotate, hshapes, hrerooted, List.map_cons, List.map_cons,
    List.modifyHead_cons, hrenamed _ _ hhead, hname, map_eq_map_of_forall₂ hsame hrest]

theorem Program.ofNode_renamed (root : String) {path : Path} {json : Json}
    (hs : (Node.annotate path json).hasShape = true) (h : (Node.annotate path json).PartsBelow) :
    ofNode (.annotate (path.rerooted root) json) =
      (ofNode (.annotate path json)).withName (typeName (path.rerooted root)) := by
  have hl := Node.label_renamed root hs h
  have hd := Node.decoder_renamed root hs h
  have he := Node.encoder_renamed root hs h
  have hc := Node.documentCodec_renamed root hs h
  rw [← Node.annotate_rerooted, Node.path_annotate] at hl hd he hc
  refine (Program.mk.injEq ..).mpr ⟨?_, ?_, ?_, hl, hd, he, hc⟩
  · exact extend_renamed root hs h (fun _ _ hab => hab.type) fun _ _ hab => hab.type
  · exact extend_renamed root hs h (fun _ _ hab => hab.decoder) fun _ _ hab => hab.decoder
  · exact extend_renamed root hs h (fun _ _ hab => hab.encoder) fun _ _ hab => hab.encoder

-- ---------------------------------------------------------------------------
-- Conversions
-- ---------------------------------------------------------------------------

theorem Checked.partsBelow {root : String} {json : Json}
    (h : Checked (.annotate (.ofRoot root) json))
    (hs : (Node.annotate (.ofRoot root) json).hasShape = true) :
    (Node.annotate (.ofRoot root) json).PartsBelow := by
  obtain ⟨shape, hs⟩ := Node.hasShape_iff.mp hs
  obtain ⟨after, hshapes⟩ := Node.exists_shapes_eq_cons hs
  have hn := h.nodup_names
  rw [hshapes, List.map_cons, List.nodup_cons, (Node.name_of_shape? hs).1, Node.path_annotate] at hn
  intro other ho
  rw [hshapes, List.tail_cons] at ho
  have hm : other ∈ (Node.annotate (.ofRoot root) json).shapes :=
    hshapes ▸ List.mem_cons_of_mem _ ho
  obtain ⟨part, hp, hpart⟩ := List.mem_filterMap.mp hm
  obtain ⟨hname, hpath⟩ := Node.name_of_shape? hpart
  rw [← Bool.not_eq_true]
  intro hr
  rw [hpath] at hr
  -- A declaration at the root's path would have the root's name a second time.
  exact hn.1 (List.mem_map.mpr ⟨other, ho, by rw [hname, Node.path_eq_of_isRoot hp hr]⟩)

namespace Program

theorem withName_tail (name : String) (program : Program) :
    (program.withName name).artifacts.types.tail = program.artifacts.types.tail ∧
      (program.withName name).artifacts.decoders.tail = program.artifacts.decoders.tail ∧
      (program.withName name).artifacts.encoders.tail = program.artifacts.encoders.tail := by
  have htail : ∀ {α : Type} (f : α → α) (text : α → String) (decls : List α),
      ((decls.modifyHead f).map text).tail = (decls.map text).tail := by
    intro α f text decls
    cases decls <;> rfl
  exact ⟨htail _ _ _, htail _ _ _, htail _ _ _⟩

variable {options : Options} {json : Json}
  (hs : (Node.annotate (.ofRoot options.root) json).hasShape = true)
include hs

theorem artifacts_ne_nil : (ofJson options json).artifacts.types ≠ [] ∧
    (ofJson options json).artifacts.decoders ≠ [] ∧
    (ofJson options json).artifacts.encoders ≠ [] := by
  obtain ⟨shape, hs⟩ := Node.hasShape_iff.mp hs
  obtain ⟨after, hshapes⟩ := Node.exists_shapes_eq_cons hs
  simp [artifacts, ofJson, hshapes]

theorem ofJson_withName (hc : Checked (.annotate (.ofRoot options.root) json))
    (other : Options) :
    ofJson other json = (ofJson options json).withName (String.ofList (titleCase other.root)) :=
  ofNode_renamed other.root hs (hc.partsBelow hs)

end Program

namespace Artifacts

/-- Without a declaration for the document, the label makes no difference. With one, two
conversions that succeed differ in its name, with its numbered constructors: the title
form of the label. -/
theorem ofJson_rerooted (first second : Options) (json : Json) :
    ((Node.annotate (.ofRoot first.root) json).hasShape =
      (Node.annotate (.ofRoot second.root) json).hasShape) ∧
    ((Node.annotate (.ofRoot first.root) json).hasShape = false → ∀ artifacts,
      ofJson first json = .ok artifacts ↔ ofJson second json = .ok artifacts) ∧
    ((Node.annotate (.ofRoot first.root) json).hasShape = true → ∀ a b,
      ofJson first json = .ok a → ofJson second json = .ok b →
        (a.types ≠ [] ∧ a.decoders ≠ [] ∧ a.encoders ≠ []) ∧
        (a.types.tail = b.types.tail ∧ a.decoders.tail = b.decoders.tail ∧
          a.encoders.tail = b.encoders.tail) ∧
        a = ((Program.ofJson first json).withName
          (String.ofList (titleCase first.root))).artifacts ∧
        b = ((Program.ofJson first json).withName
          (String.ofList (titleCase second.root))).artifacts) := by
  have hrerooted := Node.annotate_rerooted second.root (.ofRoot first.root) json
  change Node.annotate (.ofRoot second.root) json = _ at hrerooted
  refine ⟨?_, fun hs artifacts => ?_, fun hs a b ha hb => ?_⟩
  · rw [hrerooted, Node.hasShape_rerooted]
  · have hbelow := Node.DeclaresBelow.of_hasShape hs
    have hprogram : Program.ofJson second json = Program.ofJson first json :=
      Program.ofNode_rerooted second.root hbelow
    have hchecked := Checked.rerooted_iff second.root hbelow
    rw [← hrerooted] at hchecked
    rw [ofJson_ok_iff, ofJson_ok_iff, hprogram, hchecked]
  · obtain ⟨hc, rfl⟩ := ofJson_ok ha
    obtain ⟨-, rfl⟩ := ofJson_ok hb
    have hsecond := Program.ofJson_withName hs hc second
    obtain ⟨ht, hd, he⟩ := Program.withName_tail (String.ofList (titleCase second.root))
      (Program.ofJson first json)
    refine ⟨Program.artifacts_ne_nil hs, ?_, ?_, congrArg Program.artifacts hsecond⟩
    · rw [hsecond]
      exact ⟨ht.symm, hd.symm, he.symm⟩
    · exact congrArg Program.artifacts (Program.ofJson_withName hs hc first)

/-- A null and a record with an empty key, under two labels; a list of records under a
label that gives no name. -/
theorem ofJson_rerooted_topLevel :
    (∃ a b, ofJson ⟨"Root", false⟩ (.list [.null, .object [("", .string "x")]]) = .ok a ∧
      ofJson ⟨"top level", true⟩ (.list [.null, .object [("", .string "x")]]) = .ok b ∧
      a.types.head? = some "type Root\n    = Root0 ()\n    | Root1 Entity" ∧
      b.types.head? = some "type TopLevel\n    = TopLevel0 ()\n    | TopLevel1 Entity" ∧
      a.types.tail = b.types.tail ∧ a.decoders.tail = b.decoders.tail ∧
      a.encoders.tail = b.encoders.tail) ∧
    ∃ a, ofJson ⟨"Root", false⟩ (.list [.object []]) = .ok a ∧
      ofJson ⟨"", false⟩ (.list [.object []]) = .ok a := by
  constructor
  · have hs : (Node.annotate (.ofRoot "Root")
        (.list [.null, .object [("", .string "x")]])).hasShape = true := by decide +kernel
    obtain ⟨a, ha, hta⟩ : ∃ a,
        ofJson ⟨"Root", false⟩ (.list [.null, .object [("", .string "x")]]) = .ok a ∧
          a.types.head? = some "type Root\n    = Root0 ()\n    | Root1 Entity" :=
      ⟨_, rfl, by decide +kernel⟩
    obtain ⟨b, hb, htb⟩ : ∃ b,
        ofJson ⟨"top level", true⟩ (.list [.null, .object [("", .string "x")]]) = .ok b ∧
          b.types.head? = some "type TopLevel\n    = TopLevel0 ()\n    | TopLevel1 Entity" :=
      ⟨_, rfl, by decide +kernel⟩
    have hsame := (ofJson_rerooted ⟨"Root", false⟩ ⟨"top level", true⟩ _).2.2 hs a b ha hb
    exact ⟨a, b, ha, hb, hta, htb, hsame.2.1⟩
  · have hs : (Node.annotate (.ofRoot "Root") (.list [.object []])).hasShape = false := by
      decide +kernel
    obtain ⟨a, ha⟩ : ∃ a, ofJson ⟨"Root", false⟩ (.list [.object []]) = .ok a := ⟨_, rfl⟩
    exact ⟨a, ha, ((ofJson_rerooted ⟨"Root", false⟩ ⟨"", false⟩ _).2.1 hs a).mp ha⟩

end Artifacts

end ElmCodec
