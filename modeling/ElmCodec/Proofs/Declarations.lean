import ElmCodec.Proofs.Meaning

/-!
# What declared types do

The decoder of a sum type tries its alternatives in turn, and the encoder finds
the branch of a constructor. A record is decoded field by field, whether its
decoder is an application or a pipe, and encoded by looking its fields up.
-/

namespace ElmCodec

-- ---------------------------------------------------------------------------
-- Bodies made of fields
-- ---------------------------------------------------------------------------

section
variable {types : List TypeDecl}

theorem DecoderBody.run_ofFields {fields : List (String × Decoder)}
    (h : fields = [] → TypeDecl.construct types constructor [] = some (.record []))
    (named : String → Json → Option Value) (json : Json) :
    (ofFields constructor fields).run types named json =
      (fields.mapM (runField named json)).bind (TypeDecl.construct types constructor) := by
  unfold ofFields
  split
  · rename_i he
    obtain rfl := List.isEmpty_iff.mp he
    exact (h rfl).symm
  · split
    · rfl
    · exact run_pipe ..

theorem EncoderBody.run_ofFields (fields : List FieldEncoder) (named : String → Value → Option Json)
    (record : List (String × Value)) :
    (ofFields fields).run named (.record record) =
      (fields.mapM (runField named record)).map .object := by
  unfold ofFields
  split
  · rename_i he
    obtain rfl := List.isEmpty_iff.mp he
    rfl
  · rfl

end

-- ---------------------------------------------------------------------------
-- Sums and records
-- ---------------------------------------------------------------------------

theorem TypeDecl.construct_of_find {types : List TypeDecl} {name : String} {path : Path}
    {fields : List Field} {arguments : List Value}
    (ht : types.find? (·.name = name) = some (.ofShape (.record name path fields)))
    (hl : arguments.length = fields.length) : construct types name arguments =
      some (.record ((fields.map (·.identifier)).zip arguments)) := by
  simp [construct, ht, ofShape, hl, Function.comp_def]

/-- What a meaning of a program knows about one of its declarations. -/
structure Shape.Means (shape : Shape) (types : List TypeDecl) (meaning : Meaning) : Prop where
  decode : ∀ json, meaning.decode shape.name json =
    (DecoderDecl.ofShape shape).body.run types meaning.decode json
  encode : ∀ value, meaning.encode shape.name value =
    (EncoderDecl.ofShape shape).body.run meaning.encode value
  type : types.find? (·.name = shape.name) = some (.ofShape shape)
  declares : shape.declares.Nodup
  identifiers : shape.identifiers.Nodup

namespace Shape.Means

variable {types : List TypeDecl} {meaning : Meaning} {name : String} {path : Path}

section
variable {variants : List Variant}

theorem decode_sum (hs : (Shape.sum name path variants).Means types meaning) (json : Json) :
    meaning.decode name json = variants.findSome? fun variant =>
      ((Decoder.ofNode variant.exemplar).run meaning.decode json).map
        (.variant variant.constructor) := by
  have hd := hs.decode json
  rw [DecoderDecl.ofShape, DecoderBody.run, List.findSome?_map] at hd
  exact hd

theorem encode_sum (hs : (Shape.sum name path variants).Means types meaning)
    (hv : variant ∈ variants) (payload : Value) :
    meaning.encode name (.variant variant.constructor payload) =
      (Encoder.ofNode variant.exemplar).run meaning.encode payload := by
  have hlookup : (variants.map fun variant =>
      (variant.constructor, Encoder.ofNode variant.exemplar)).lookup variant.constructor =
        some (.ofNode variant.exemplar) := by
    refine Members.lookup_of_mem ?_ (List.mem_map.mpr ⟨variant, hv, rfl⟩)
    rw [List.map_map]
    exact (List.nodup_cons.mp hs.declares).2
  have he := hs.encode (.variant variant.constructor payload)
  rw [EncoderDecl.ofShape, EncoderBody.run, hlookup] at he
  exact he

end

section
variable {fields : List Field}

theorem construct_record (hs : (Shape.record name path fields).Means types meaning)
    {arguments : List Value} (hl : arguments.length = fields.length) :
    TypeDecl.construct types name arguments =
      some (.record ((fields.map (·.identifier)).zip arguments)) :=
  TypeDecl.construct_of_find hs.type hl

theorem decode_record (hs : (Shape.record name path fields).Means types meaning) (json : Json) :
    meaning.decode name json = (fields.mapM fun field =>
      DecoderBody.runField meaning.decode json (field.key, .ofNode field.node)).bind
        (TypeDecl.construct types name) := by
  have hd := hs.decode json
  rw [DecoderDecl.ofShape, DecoderBody.run_ofFields, List.mapM_map] at hd
  · exact hd
  · intro he
    obtain rfl := List.map_eq_nil_iff.mp he
    exact hs.construct_record rfl

theorem encode_record (hs : (Shape.record name path fields).Means types meaning)
    (value : Field → Value) (written : Field → Json)
    (hw : ∀ field ∈ fields,
      (Encoder.ofNode field.node).run meaning.encode (value field) = some (written field)) :
    meaning.encode name (.record (fields.map fun field => (field.identifier, value field))) =
      some (.object (fields.map fun field => (field.key, written field))) := by
  have he := hs.encode (.record (fields.map fun field => (field.identifier, value field)))
  rw [EncoderDecl.ofShape, EncoderBody.run_ofFields, List.mapM_map] at he
  refine he.trans (congrArg (Option.map Json.object) (mapM_eq_some_map fun field hf => ?_))
  have hlookup : (fields.map fun field => (field.identifier, value field)).lookup field.identifier =
      some (value field) := by
    refine Members.lookup_of_mem ?_ (List.mem_map.mpr ⟨field, hf, rfl⟩)
    rw [List.map_map]
    exact hs.identifiers
  simp [EncoderBody.runField, hlookup, hw field hf]

end

end Shape.Means

-- ---------------------------------------------------------------------------
-- Programs of checked documents
-- ---------------------------------------------------------------------------

theorem find_type {shapes : List Shape} (hn : (shapes.map Shape.name).Nodup) (hs : shape ∈ shapes) :
    (shapes.map TypeDecl.ofShape).find? (·.name = shape.name) = some (.ofShape shape) := by
  induction shapes with
  | nil => simp at hs
  | cons first rest ih =>
    obtain ⟨hf, hr⟩ := List.nodup_cons.mp hn
    rw [List.map_cons, List.find?_cons]
    rcases List.mem_cons.mp hs with rfl | hs
    · simp
    · have hne : first.name ≠ shape.name := fun he => hf (he ▸ List.mem_map_of_mem hs)
      simpa [hne] using ih hr hs

namespace Program

variable {path : Path} {json : Json} {meaning : Meaning}

theorem means_shapes (hc : Checked (.annotate path json))
    (hm : (ofNode (.annotate path json)).Means meaning) :
    ∀ shape ∈ (Node.annotate path json).shapes,
      shape.Means (ofNode (.annotate path json)).types meaning := by
  intro shape hs
  refine ⟨fun json => ?_, fun value => ?_, ?_, (List.nodup_flatMap.mp hc.nodup).1 shape hs,
    hc.identifiers shape hs⟩
  · have hd := hm.decode (.ofShape shape) (by
      rw [decoderDefinitions_ofNode]
      exact List.mem_append_right _ (List.mem_map_of_mem hs)) json
    rwa [DecoderDecl.name_ofShape] at hd
  · have he := hm.encode (.ofShape shape) (by
      rw [encoderDefinitions_ofNode]
      exact List.mem_append_right _ (List.mem_map_of_mem hs)) value
    rwa [EncoderDecl.name_ofShape] at he
  · rw [types_ofNode]
    exact find_type hc.nodup_names hs

theorem decode_entry (hm : (ofNode root).Means meaning) (json : Json) :
    meaning.decode (ofNode root).entry json = (Decoder.ofNode root).run meaning.decode json := by
  cases root with
  | object path members => rfl
  | scalar path value => exact hm.decode _ List.mem_cons_self json
  | list path items => exact hm.decode _ List.mem_cons_self json

theorem encode_entry (hm : (ofNode root).Means meaning) (value : Value) :
    meaning.encode (ofNode root).entry value = (Encoder.ofNode root).run meaning.encode value := by
  cases root with
  | object path members => rfl
  | scalar path value => exact hm.encode _ List.mem_cons_self _
  | list path items => exact hm.encode _ List.mem_cons_self value

end Program

end ElmCodec
