import ElmCodec.Proofs.Alike
import ElmCodec.Proofs.References

/-!
# Generated definitions have the declared types

A decoder expression has one Elm type. The expression made for a node has the
type of the node's label, and the encoder expression made for it takes arguments
of that type. So what is defined for one shape lines up: every entry of a
declared type has an entry of its decoder and one of its encoder, with
expressions of that entry's type.
-/

namespace ElmCodec

-- ---------------------------------------------------------------------------
-- Expressions
-- ---------------------------------------------------------------------------

/-- An expression of the Elm type `Json.Decode.Decoder label`. -/
inductive Decoder.HasType : Decoder → Label → Prop
  | bool : HasType .bool .bool
  | float : HasType .float .float
  | string : HasType .string .string
  | null : HasType .null .unit
  | anything : HasType .anything .unit
  | list : HasType item label → HasType (.list item) (.list label)
  | named : HasType (.named type) (.named type)

/-- An expression that can stand as a function from `label` to `Json.Encode.Value`.
The functions that do not look at their argument take one of any type. -/
inductive Encoder.HasType : Encoder → Label → Prop
  | bool : HasType .bool .bool
  | float : HasType .float .float
  | string : HasType .string .string
  | null : HasType .null label
  | emptyList : HasType .emptyList label
  | list : HasType item label → HasType (.list item) (.list label)
  | named : HasType (.named type) (.named type)

theorem Decoder.HasType.unique {decoder : Decoder} (hf : decoder.HasType first)
    (hs : decoder.HasType second) : first = second := by
  induction hf generalizing second with
  | list _ ih =>
    cases hs with
    | list hs => exact congrArg Label.list (ih hs)
  | _ => cases hs; rfl

theorem Decoder.hasType_ofNode (node : Node) : (ofNode node).HasType node.label := by
  induction node using Node.inductFirst with
  | scalar path value => cases value <;> constructor
  | object path members => exact .named
  | empty path => exact .list .anything
  | mixed path first rest hm =>
    rw [ofNode_mixed path hm, Node.label_list_mixed path hm]
    exact .list .named
  | uniform path first rest hm ih =>
    rw [ofNode_uniform path hm, Node.label_list_uniform path hm]
    exact .list ih

theorem Decoder.hasType_ofNode_iff {node : Node} :
    (ofNode node).HasType label ↔ label = node.label := by
  constructor
  · exact fun h => h.unique (hasType_ofNode node)
  · rintro rfl
    exact hasType_ofNode node

theorem Encoder.hasType_ofNode (node : Node) : (ofNode node).HasType node.label := by
  induction node using Node.inductFirst with
  | scalar path value => cases value <;> constructor
  | object path members => exact .named
  | empty path => exact .emptyList
  | mixed path first rest hm =>
    rw [ofNode_mixed path hm, Node.label_list_mixed path hm]
    exact .list .named
  | uniform path first rest hm ih =>
    rw [ofNode_uniform path hm, Node.label_list_uniform path hm]
    exact .list ih

-- ---------------------------------------------------------------------------
-- Definitions
-- ---------------------------------------------------------------------------

/-- The `n` of a `mapn`, or the number of steps of a pipe. -/
def DecoderBody.arity : DecoderBody → Nat
  | apply _ fields | pipe _ fields => fields.length
  | _ => 0

/-- A decoder that applies a record's constructor to these arguments. There is
no `map` of more than `maxArity` decoders. -/
inductive DecoderBody.Applies (constructor : String) :
    List (String × Decoder) → DecoderBody → Prop
  | empty : Applies constructor [] .empty
  | apply : arguments ≠ [] → arguments.length ≤ maxArity →
      Applies constructor arguments (.apply constructor arguments)
  | pipe : maxArity < arguments.length →
      Applies constructor arguments (.pipe constructor arguments)

inductive EncoderBody.Writes : List FieldEncoder → EncoderBody → Prop
  | empty : Writes [] .empty
  | object : entries ≠ [] → Writes entries (.object entries)

/-- A type with the decoder and the encoder defined for it, entry by entry. -/
inductive Agree : TypeDecl → DecoderDecl → EncoderDecl → Prop
  | record {name : String} {fields : List (String × Label)} {arguments : List (String × Decoder)}
      {entries : List FieldEncoder} {reader : DecoderBody} {writer : EncoderBody} :
      reader.Applies name arguments → reader.arity = fields.length → writer.Writes entries →
      arguments.map (·.1) = entries.map (·.key) →
      entries.map (·.identifier) = fields.map (·.1) →
      List.Forall₂ Decoder.HasType (arguments.map (·.2)) (fields.map (·.2)) →
      List.Forall₂ Encoder.HasType (entries.map (·.encoder)) (fields.map (·.2)) →
      Agree (.record name fields) ⟨name, .named name, reader⟩ ⟨name, .named name, writer⟩
  | union {name : String} {variants : List (String × Label)}
      {alternatives : List (String × Decoder)} {branches : List (String × Encoder)} :
      alternatives.map (·.1) = variants.map (·.1) →
      branches.map (·.1) = variants.map (·.1) →
      List.Forall₂ Decoder.HasType (alternatives.map (·.2)) (variants.map (·.2)) →
      List.Forall₂ Encoder.HasType (branches.map (·.2)) (variants.map (·.2)) →
      Agree (.union name variants) ⟨name, .named name, .oneOf alternatives⟩
        ⟨name, .named name, .cases branches⟩

theorem DecoderBody.applies_ofFields (constructor : String) (arguments : List (String × Decoder)) :
    Applies constructor arguments (ofFields constructor arguments) := by
  unfold ofFields
  split
  · rename_i he
    obtain rfl := List.isEmpty_iff.mp he
    exact .empty
  · rename_i he
    split
    · rename_i hl
      exact .apply (by simpa using he) hl
    · rename_i hl
      exact .pipe (Nat.lt_of_not_le hl)

theorem DecoderBody.Applies.arity {body : DecoderBody} (h : body.Applies constructor arguments) :
    body.arity = arguments.length := by
  cases h <;> rfl

theorem EncoderBody.writes_ofFields (entries : List FieldEncoder) :
    Writes entries (ofFields entries) := by
  unfold ofFields
  split
  · rename_i he
    obtain rfl := List.isEmpty_iff.mp he
    exact .empty
  · rename_i he
    exact .object (by simpa using he)

theorem Agree.ofShape {shape : Shape} (h : shape.Labelled) :
    Agree (.ofShape shape) (.ofShape shape) (.ofShape shape) := by
  cases shape with
  | record name path fields =>
    have reads : ∀ field ∈ fields, (Decoder.ofNode field.node).HasType field.label :=
      fun field hf => Decoder.hasType_ofNode_iff.mpr (h field hf)
    have writes : ∀ field ∈ fields, (Encoder.ofNode field.node).HasType field.label :=
      fun field hf => h field hf ▸ Encoder.hasType_ofNode field.node
    have applies := DecoderBody.applies_ofFields name
      (fields.map fun field => (field.key, Decoder.ofNode field.node))
    refine .record applies ?_ (EncoderBody.writes_ofFields _) ?_ ?_ ?_ ?_
    · simp [applies.arity]
    · simp
    · simp
    · rw [List.map_map, List.map_map]
      exact forall₂_map_map reads
    · rw [List.map_map, List.map_map]
      exact forall₂_map_map writes
  | sum name path variants =>
    have reads : ∀ variant ∈ variants, (Decoder.ofNode variant.exemplar).HasType variant.label :=
      fun variant hv => Decoder.hasType_ofNode_iff.mpr (h variant hv)
    have writes : ∀ variant ∈ variants, (Encoder.ofNode variant.exemplar).HasType variant.label :=
      fun variant hv => h variant hv ▸ Encoder.hasType_ofNode variant.exemplar
    refine .union ?_ ?_ ?_ ?_
    · simp
    · simp
    · rw [List.map_map, List.map_map]
      exact forall₂_map_map reads
    · rw [List.map_map, List.map_map]
      exact forall₂_map_map writes

-- ---------------------------------------------------------------------------
-- Programs
-- ---------------------------------------------------------------------------

namespace Program

/-- Expressions have the types of the labels they were made beside, and the three
definitions made at each visit of the walk agree. -/
theorem agree_ofNode (root : Node) :
    (∀ node label, (Decoder.ofNode node).HasType label ↔ label = node.label) ∧
      (∀ node, (Encoder.ofNode node).HasType node.label) ∧
      (ofNode root).decoders.length = (ofNode root).types.length ∧
      (ofNode root).encoders.length = (ofNode root).types.length ∧
      ∀ (i : Nat) (type : TypeDecl) (decoder : DecoderDecl) (encoder : EncoderDecl),
        (ofNode root).types[i]? = some type → (ofNode root).decoders[i]? = some decoder →
          (ofNode root).encoders[i]? = some encoder → Agree type decoder encoder := by
  have ht : (ofNode root).types = root.visited.map .ofShape := extend_eq_map _ root
  have hd : (ofNode root).decoders = root.visited.map .ofShape := extend_eq_map _ root
  have he : (ofNode root).encoders = root.visited.map .ofShape := extend_eq_map _ root
  refine ⟨fun _ _ => Decoder.hasType_ofNode_iff, Encoder.hasType_ofNode, ?_, ?_, ?_⟩
  · simp [ht, hd]
  · simp [ht, he]
  · intro i type decoder encoder hti hdi hei
    rw [ht, List.getElem?_map, Option.map_eq_some_iff] at hti
    obtain ⟨shape, hs, rfl⟩ := hti
    rw [hd, List.getElem?_map, hs] at hdi
    rw [he, List.getElem?_map, hs] at hei
    obtain rfl := Option.some.inj hdi
    obtain rfl := Option.some.inj hei
    exact .ofShape (Shape.labelled_of_mem
      (root.mem_shapes_of_visited (List.mem_of_getElem? hs)))

end Program

end ElmCodec
