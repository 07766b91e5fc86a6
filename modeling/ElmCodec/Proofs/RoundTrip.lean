import ElmCodec.Proofs.Declarations
import ElmCodec.Proofs.Reading
import Mathlib.Tactic.Choose

/-!
# Round trips

The codec made for a node takes the values that the node reads. What it decodes
it can encode, and the result is the value again exactly when the node keeps
all of it.
-/

namespace ElmCodec

/-- A value on its way through a decoder and an encoder. -/
structure Trip where
  value : Value
  kept : Bool
  written : Json

instance : Nonempty Trip := ⟨⟨.unit, true, .null⟩⟩

/-- The trip of `source`, from what its decoder made of it through `encode`. -/
structure Trip.Of (trip : Trip) (decoded : Option Value) (outcome : Option Bool)
    (encode : Value → Option Json) (source : Json) : Prop where
  decoded : decoded = some trip.value
  outcome : outcome = some trip.kept
  encoded : encode trip.value = some trip.written
  kept : source.Distinct → (trip.kept = true ↔ trip.written.sorted = source.sorted)

/-- A codec does with `source` what the outcome says. -/
inductive RoundTrip (decoded : Option Value) (outcome : Option Bool)
    (encode : Value → Option Json) (source : Json) : Prop
  | refused : decoded = none → outcome = none → RoundTrip decoded outcome encode source
  | read (trip : Trip) : trip.Of decoded outcome encode source →
      RoundTrip decoded outcome encode source

namespace RoundTrip

theorem decoded_eq_none (h : RoundTrip decoded none encode source) : decoded = none := by
  cases h with
  | refused hd _ => exact hd
  | read trip ht => exact absurd ht.outcome nofun

theorem of_some (h : RoundTrip decoded (some kept) encode source) :
    ∃ trip : Trip, trip.kept = kept ∧ trip.Of decoded (some kept) encode source := by
  cases h with
  | refused _ ho => exact absurd ho nofun
  | read trip ht => exact ⟨trip, Option.some.inj ht.outcome.symm, ht⟩

theorem parts {l : List α} {decoded : α → Option Value} {outcome : α → Option Bool}
    {encode : α → Value → Option Json} {source : α → Json}
    (h : ∀ a ∈ l, RoundTrip (decoded a) (outcome a) (encode a) (source a)) :
    (∃ a ∈ l, decoded a = none ∧ outcome a = none) ∨
      ∃ trip : α → Trip, ∀ a ∈ l, (trip a).Of (decoded a) (outcome a) (encode a) (source a) := by
  by_cases hall : ∀ a ∈ l, ∃ trip : Trip, trip.Of (decoded a) (outcome a) (encode a) (source a)
  · choose! trip ht using hall
    exact .inr ⟨trip, ht⟩
  · obtain ⟨a, hall⟩ := Classical.not_forall.mp hall
    obtain ⟨ha, hn⟩ := Classical.not_imp.mp hall
    cases h a ha with
    | refused hd ho => exact .inl ⟨a, ha, hd, ho⟩
    | read trip ht => exact absurd ⟨trip, ht⟩ hn

-- ---------------------------------------------------------------------------
-- Lists
-- ---------------------------------------------------------------------------

variable {meaning : Meaning}

theorem list {decoder : Decoder} {encoder : Encoder} {reads : Json → Option Bool}
    {values : List Json}
    (h : ∀ value ∈ values, RoundTrip (decoder.run meaning.decode value) (reads value)
      (encoder.run meaning.encode) value) :
    RoundTrip ((Decoder.list decoder).run meaning.decode (.list values))
      ((values.mapM reads).map (·.all id)) ((Encoder.list encoder).run meaning.encode)
      (.list values) := by
  rcases parts h with ⟨value, hv, hd, ho⟩ | ⟨trip, ht⟩
  · refine .refused ?_ ?_
    · rw [Decoder.run, mapM_eq_none hv hd]
      rfl
    · rw [mapM_eq_none hv ho]
      rfl
  · refine .read ⟨.list (values.map fun value => (trip value).value),
      (values.map fun value => (trip value).kept).all id,
      .list (values.map fun value => (trip value).written)⟩ ⟨?_, ?_, ?_, ?_⟩
    · rw [Decoder.run, mapM_eq_some_map fun value hv => (ht value hv).decoded]
      rfl
    · rw [mapM_eq_some_map fun value hv => (ht value hv).outcome]
      rfl
    · rw [Encoder.run, List.mapM_map]
      exact congrArg (Option.map Json.list) (mapM_eq_some_map fun value hv => (ht value hv).encoded)
    · intro hs
      have hk := fun value hv => (ht value hv).kept (hs.of_list value hv)
      simp only [Json.sorted_list, List.map_map, Json.list.injEq, List.map_inj_left, List.all_map,
        List.all_eq_true, Function.comp_apply, id]
      exact forall₂_congr hk

theorem emptyList (path : Path) (values : List Json) :
    RoundTrip ((Decoder.list .anything).run meaning.decode (.list values))
      ((Node.list path []).reads (.list values)) (Encoder.emptyList.run meaning.encode)
      (.list values) := by
  refine .read ⟨.list (values.map fun _ => .unit), values.isEmpty, .list []⟩ ⟨?_, ?_, rfl, ?_⟩
  · have h : ∀ value ∈ values, Decoder.anything.run meaning.decode value = some .unit :=
      fun value _ => by cases value <;> rfl
    rw [Decoder.run, mapM_eq_some_map h]
    rfl
  · exact Node.reads_list_nil path values
  · intro _
    cases values <;> simp [Json.sorted_list]

end RoundTrip

namespace RoundTrip

variable {types : List TypeDecl} {meaning : Meaning}

theorem sum {path : Path} {variants : List Variant}
    (hs : (Shape.sum name path variants).Means types meaning)
    (h : ∀ variant ∈ variants, RoundTrip ((Decoder.ofNode variant.exemplar).run meaning.decode json)
      (variant.exemplar.reads json) ((Encoder.ofNode variant.exemplar).run meaning.encode) json) :
    RoundTrip (meaning.decode name json)
      (variants.findSome? fun variant => variant.exemplar.reads json) (meaning.encode name)
      json := by
  have hnone : ∀ variant ∈ variants, variant.exemplar.reads json = none →
      ((Decoder.ofNode variant.exemplar).run meaning.decode json).map
        (Value.variant variant.constructor) = none := by
    intro variant hv hn
    have ht := h variant hv
    rw [hn] at ht
    rw [ht.decoded_eq_none, Option.map_none]
  cases hr : variants.findSome? fun variant => variant.exemplar.reads json with
  | none =>
    rw [List.findSome?_eq_none_iff] at hr
    exact .refused ((hs.decode_sum json).trans (List.findSome?_eq_none_iff.mpr fun variant hv =>
      hnone variant hv (hr variant hv))) rfl
  | some kept =>
    obtain ⟨before, variant, after, hl, hk, hbefore⟩ := List.findSome?_eq_some_iff.mp hr
    have hv : variant ∈ variants := by simp [hl]
    have ht := h variant hv
    rw [hk] at ht
    obtain ⟨trip, rfl, ht⟩ := ht.of_some
    refine .read ⟨.variant variant.constructor trip.value, trip.kept, trip.written⟩
      ⟨?_, rfl, (hs.encode_sum hv trip.value).trans ht.encoded, ht.kept⟩
    refine (hs.decode_sum json).trans (List.findSome?_eq_some_iff.mpr
      ⟨before, variant, after, hl, ?_, fun other ho => ?_⟩)
    · rw [ht.decoded, Option.map_some]
    · exact hnone other (by simp [hl, ho]) (hbefore other ho)

def fieldSource (json : Json) (field : Field) : Json := (json.member? field.key).getD .null

theorem field {field : Field} (json : Json)
    (h : ∀ json, RoundTrip ((Decoder.ofNode field.node).run meaning.decode json)
      (field.node.reads json) ((Encoder.ofNode field.node).run meaning.encode) json) :
    RoundTrip (DecoderBody.runField meaning.decode json (field.key, .ofNode field.node))
      ((json.member? field.key).bind field.node.reads)
      ((Encoder.ofNode field.node).run meaning.encode) (fieldSource json field) := by
  unfold fieldSource DecoderBody.runField
  cases json.member? field.key with
  | none => exact .refused rfl rfl
  | some member => exact h member

theorem mem_of_read {members : List (String × Json)} {field : Field} {trip : Trip}
    (h : trip.Of decoded (((Json.object members).member? field.key).bind field.node.reads)
      encode source) : (field.key, fieldSource (.object members) field) ∈ members := by
  unfold fieldSource
  cases hm : (Json.object members).member? field.key with
  | none =>
    rw [hm] at h
    exact absurd h.outcome nofun
  | some member => exact Members.mem_of_lookup hm

theorem record {path : Path} {fields : List Field}
    (hs : (Shape.record name path fields).Means types meaning)
    (hk : (fields.map (·.key)).Nodup)
    (h : ∀ field ∈ fields, ∀ json, RoundTrip ((Decoder.ofNode field.node).run meaning.decode json)
      (field.node.reads json) ((Encoder.ofNode field.node).run meaning.encode) json) (json : Json) :
    RoundTrip (meaning.decode name json)
      ((fields.mapM fun field => (json.member? field.key).bind field.node.reads).map fun kept =>
        kept.all id && json.memberCount = some fields.length)
      (meaning.encode name) json := by
  rcases parts fun f hf => field json (h f hf) with ⟨f, hf, hn, ho⟩ | ⟨trip, ht⟩
  · refine .refused ?_ ?_
    · rw [hs.decode_record, mapM_eq_none hf hn]
      rfl
    · rw [mapM_eq_none hf ho]
      rfl
  · refine .read ⟨.record (fields.map fun f => (f.identifier, (trip f).value)),
      (fields.map fun f => (trip f).kept).all id && json.memberCount = some fields.length,
      .object (fields.map fun f => (f.key, (trip f).written))⟩ ⟨?_, ?_, ?_, ?_⟩
    · rw [hs.decode_record, mapM_eq_some_map fun f hf => (ht f hf).decoded, Option.bind_some,
        hs.construct_record (by simp), List.zip_map']
    · rw [mapM_eq_some_map fun f hf => (ht f hf).outcome]
      rfl
    · exact hs.encode_record _ _ fun f hf => (ht f hf).encoded
    · intro hj
      cases json with
      | object members =>
        have hmem : ∀ f ∈ fields, (f.key, fieldSource (.object members) f) ∈ members :=
          fun f hf => mem_of_read (ht f hf)
        have hkept : ∀ f ∈ fields, ((trip f).kept = true ↔
            (trip f).written.sorted = (fieldSource (.object members) f).sorted) :=
          fun f hf => (ht f hf).kept (hj.of_object _ (hmem f hf))
        rw [Json.sorted_object_eq_iff hk hj.nodup_keys hmem]
        simp only [Bool.and_eq_true, List.all_map, List.all_eq_true, Function.comp_apply, id,
          Json.memberCount, Option.some.injEq, decide_eq_true_eq]
        exact and_congr_left fun _ => forall₂_congr hkept
      | list items => simp [Json.memberCount, Json.sorted_list, Json.sorted_object]
      | _ => simp [Json.memberCount, Json.sorted]

end RoundTrip

-- ---------------------------------------------------------------------------
-- Nodes
-- ---------------------------------------------------------------------------

namespace Node

variable {types : List TypeDecl} {meaning : Meaning}

theorem roundTrip_scalar (path : Path) (value : Scalar) (json : Json) :
    RoundTrip ((Decoder.ofScalar value).run meaning.decode json) ((scalar path value).reads json)
      ((Encoder.ofScalar value).run meaning.encode) json := by
  have hfit : value.fits json = true →
      ∃ x, (Decoder.ofScalar value).run meaning.decode json = some x ∧
        (Encoder.ofScalar value).run meaning.encode x = some json := by
    intro h
    cases value <;> cases json <;> simp_all [Scalar.fits, Decoder.ofScalar, Encoder.ofScalar,
      Decoder.run, Encoder.run]
  have hnot : value.fits json = false →
      (Decoder.ofScalar value).run meaning.decode json = none := by
    intro h
    cases value <;> cases json <;> simp_all [Scalar.fits, Decoder.ofScalar, Decoder.run]
  rw [reads]
  split
  · rename_i h
    obtain ⟨x, hd, he⟩ := hfit h
    exact .read ⟨x, true, json⟩ ⟨hd, rfl, he, fun _ => by simp⟩
  · rename_i h
    exact .refused (hnot (by simpa using h)) rfl

/-- The codec of a node whose shapes are all defined does what the node reads. -/
theorem roundTrip (node : Node) (h : ∀ shape ∈ node.shapes, shape.Means types meaning)
    (json : Json) : RoundTrip ((Decoder.ofNode node).run meaning.decode json) (node.reads json)
      ((Encoder.ofNode node).run meaning.encode) json := by
  induction node using Node.induct generalizing json with
  | scalar path value => exact roundTrip_scalar path value json
  | list path items ih =>
    cases items with
    | nil =>
      cases json with
      | list values => exact .emptyList path values
      | _ => exact .refused rfl rfl
    | cons first rest =>
      cases hm : isMixed (first :: rest) with
      | true =>
        rw [Decoder.ofNode_mixed path hm, Encoder.ofNode_mixed path hm]
        cases json with
        | list values =>
          rw [reads_list_cons]
          refine .list fun value _ => ?_
          rw [← Shape.labels_variants (typeName path) 0 (representatives (first :: rest)),
            List.findSome?_map]
          have hs := h (.ofItems path (first :: rest)) (by simp [shapes_mixed path hm])
          refine .sum hs fun variant hv => ?_
          have hi := (mem_representatives (Shape.mem_variants hv)).1
          exact ih _ hi (fun shape hs => h shape (mem_shapes_list path hi hs)) value
        | _ => exact .refused rfl rfl
      | false =>
        rw [Decoder.ofNode_uniform path hm, Encoder.ofNode_uniform path hm]
        cases json with
        | list values =>
          rw [reads_list_uniform path hm]
          exact .list fun value _ => ih first List.mem_cons_self
            (fun shape hs => h shape (mem_shapes_list path List.mem_cons_self hs)) value
        | _ => exact .refused rfl rfl
  | object path members ih =>
    have hs := h (.ofMembers path members) (by simp [shapes_object])
    have hk : (((Members.sort members).map fun m => Shape.field m.1 m.2).map (·.key)).Nodup := by
      rw [List.map_map]
      exact Shape.nodup_keys hs.identifiers
    have hr := RoundTrip.record hs hk (fun f hf json => by
      obtain ⟨m, hm, rfl⟩ := List.mem_map.mp hf
      have hm := Members.mem_sort.mp hm
      exact ih m hm (fun shape hshape => h shape (mem_shapes_object path hm hshape)) json) json
    rw [List.mapM_map, List.length_map, Members.length_sort] at hr
    rw [reads_object]
    exact hr

end Node

end ElmCodec
