import ElmCodec.Proofs.Declarations
import Mathlib.Tactic.Choose

/-!
# Every value of a declared type comes back

A document gives its types an unbounded number of values besides its own. Where
every list of the document has items and these share a label, the codec of a
list is made from that of its items, and then whatever a value of the root's
type is encoded as decodes to that value.
-/

namespace ElmCodec

-- ---------------------------------------------------------------------------
-- Values of a type
-- ---------------------------------------------------------------------------

/-- The values of an Elm type when these types are declared. A record has its
fields in the order of the declaration. -/
inductive Value.HasType (types : List TypeDecl) : Value → Label → Prop
  | bool : HasType types (.bool value) .bool
  | float : HasType types (.float value) .float
  | string : HasType types (.string text) .string
  | unit : HasType types .unit .unit
  | list : (∀ item ∈ items, HasType types item label) → HasType types (.list items) (.list label)
  | record : .record name fields ∈ types → values.map (·.1) = fields.map (·.1) →
      List.Forall₂ (HasType types) (values.map (·.2)) (fields.map (·.2)) →
      HasType types (.record values) (.named name)
  | variant : .union name variants ∈ types → (constructor, label) ∈ variants →
      HasType types payload label → HasType types (.variant constructor payload) (.named name)

namespace Value.HasType

variable {types : List TypeDecl} {x : Value}

theorem items_of_list (h : x.HasType types (.list label)) :
    ∃ items, x = .list items ∧ ∀ item ∈ items, item.HasType types label := by
  cases h with
  | list h => exact ⟨_, rfl, h⟩

theorem exists_columns {fields : List Field} {values : List (String × Value)}
    {r : Value → Label → Prop} (hd : (fields.map (·.identifier)).Nodup)
    (hk : values.map (·.1) = fields.map (·.identifier))
    (hv : List.Forall₂ r (values.map (·.2)) (fields.map (·.label))) :
    ∃ value : Field → Value, values = fields.map (fun field => (field.identifier, value field)) ∧
      ∀ field ∈ fields, r (value field) field.label := by
  induction fields generalizing values with
  | nil => exact ⟨fun _ => .unit, by simpa using hk, by simp⟩
  | cons field rest ih =>
    cases values with
    | nil => simp at hk
    | cons entry values =>
      obtain ⟨key, x⟩ := entry
      obtain ⟨hf, hr⟩ := List.nodup_cons.mp hd
      obtain ⟨rfl, hkr⟩ := List.cons.inj hk
      obtain ⟨hx, hvr⟩ := List.forall₂_cons.mp hv
      obtain ⟨value, rfl, hvalue⟩ := ih hr hkr hvr
      have hne : ∀ other ∈ rest, other.identifier ≠ field.identifier := by
        intro other ho he
        exact hf (List.mem_map.mpr ⟨other, ho, he⟩)
      -- The function of the other fields, changed at an identifier that none of them has.
      refine ⟨fun other => if other.identifier = field.identifier then x else value other, ?_, ?_⟩
      · simp only [List.map_cons, if_pos]
        congr 1
        exact List.map_congr_left fun other ho => by rw [if_neg (hne other ho)]
      · refine List.forall_mem_cons.mpr ⟨?_, fun other ho => ?_⟩
        · simpa only [if_pos] using hx
        · simpa only [if_neg (hne other ho)] using hvalue other ho

theorem fields_of_record {name : String} {path : Path} {fields : List Field}
    (hn : (types.map (·.name)).Nodup) (ht : .ofShape (.record name path fields) ∈ types)
    (hd : (fields.map (·.identifier)).Nodup) (h : x.HasType types (.named name)) :
    ∃ value : Field → Value,
      x = .record (fields.map fun field => (field.identifier, value field)) ∧
        ∀ field ∈ fields, (value field).HasType types field.label := by
  cases h with
  | record hm hk hv =>
    have he := List.inj_on_of_nodup_map hn hm ht rfl
    obtain ⟨-, rfl⟩ := TypeDecl.record.inj he
    rw [List.map_map] at hk hv
    obtain ⟨value, rfl, hvalue⟩ := exists_columns hd hk hv
    exact ⟨value, rfl, hvalue⟩
  | variant hm _ _ => exact absurd (List.inj_on_of_nodup_map hn hm ht rfl) nofun

end Value.HasType

-- ---------------------------------------------------------------------------
-- Codecs that give values back
-- ---------------------------------------------------------------------------

/-- What the encoder makes of a value is decoded to that value. -/
def Meaning.Returns (meaning : Meaning) (decoder : Decoder) (encoder : Encoder) (x : Value) :
    Prop :=
  ∃ json, encoder.run meaning.encode x = some json ∧ decoder.run meaning.decode json = some x

namespace Meaning.Returns

variable {types : List TypeDecl} {meaning : Meaning}

theorem list {decoder : Decoder} {encoder : Encoder} {items : List Value}
    (h : ∀ item ∈ items, meaning.Returns decoder encoder item) :
    meaning.Returns (.list decoder) (.list encoder) (.list items) := by
  choose! written hw using h
  refine ⟨.list (items.map written), ?_, ?_⟩
  · rw [Encoder.run, mapM_eq_some_map fun item hi => (hw item hi).1]
    rfl
  · have hread : (items.map written).mapM (fun json => decoder.run meaning.decode json) =
        some (items.map id) := by
      rw [List.mapM_map]
      exact mapM_eq_some_map fun item hi => (hw item hi).2
    rw [Decoder.run, hread, List.map_id]
    rfl

theorem scalar {value : Scalar} {x : Value} (hx : x.HasType types value.label) :
    meaning.Returns (.ofScalar value) (.ofScalar value) x := by
  cases value <;> cases hx <;> exact ⟨_, rfl, rfl⟩

theorem record {path : Path} {name : String} {fields : List Field} {value : Field → Value}
    (hs : (Shape.record name path fields).Means types meaning)
    (hk : (fields.map (·.key)).Nodup)
    (h : ∀ field ∈ fields,
      meaning.Returns (.ofNode field.node) (.ofNode field.node) (value field)) :
    meaning.Returns (.named name) (.named name)
      (.record (fields.map fun field => (field.identifier, value field))) := by
  choose! written hw using h
  refine ⟨.object (fields.map fun field => (field.key, written field)), ?_, ?_⟩
  · rw [Encoder.run]
    exact hs.encode_record value written fun field hf => (hw field hf).1
  · have hread : ∀ field ∈ fields, DecoderBody.runField meaning.decode
        (.object (fields.map fun field => (field.key, written field)))
        (field.key, .ofNode field.node) = some (value field) := by
      intro field hf
      have hl : (fields.map fun field => (field.key, written field)).lookup field.key =
          some (written field) := by
        refine Members.lookup_of_mem ?_ (List.mem_map.mpr ⟨field, hf, rfl⟩)
        rw [List.map_map]
        exact hk
      rw [DecoderBody.runField, Json.member?, hl]
      exact (hw field hf).2
    rw [Decoder.run, hs.decode_record, mapM_eq_some_map hread, Option.bind_some,
      hs.construct_record (by simp), List.zip_map']

end Meaning.Returns

-- ---------------------------------------------------------------------------
-- Documents
-- ---------------------------------------------------------------------------

namespace Node

/-- Every list of the tree has items, and they share one label. -/
def Uniform (root : Node) : Prop :=
  ∀ path items, list path items ∈ root.preorder → items ≠ [] ∧ isMixed items = false

variable {types : List TypeDecl} {meaning : Meaning} {x : Value}

theorem returns (node : Node) (hn : (types.map (·.name)).Nodup)
    (hs : ∀ shape ∈ node.shapes, shape.Means types meaning) (hu : node.Uniform)
    (hx : x.HasType types node.label) :
    meaning.Returns (.ofNode node) (.ofNode node) x := by
  induction node using Node.induct generalizing x with
  | scalar path value => exact .scalar hx
  | list path items ih =>
    obtain ⟨hne, hm⟩ := hu path items List.mem_cons_self
    cases items with
    | nil => exact absurd rfl hne
    | cons first rest =>
      rw [label_list_uniform path hm] at hx
      obtain ⟨items, rfl, hitems⟩ := hx.items_of_list
      rw [Decoder.ofNode_uniform path hm, Encoder.ofNode_uniform path hm]
      exact .list fun item hi => ih first List.mem_cons_self
        (fun shape hshape => hs shape (mem_shapes_list path List.mem_cons_self hshape))
        (fun p l hl => hu p l (mem_preorder_list path List.mem_cons_self hl)) (hitems item hi)
  | object path members ih =>
    have hshape := hs (.ofMembers path members) (by simp [shapes_object])
    have hk : (((Members.sort members).map fun m => Shape.field m.1 m.2).map (·.key)).Nodup := by
      rw [List.map_map]
      exact Shape.nodup_keys hshape.identifiers
    obtain ⟨value, rfl, hvalue⟩ := Value.HasType.fields_of_record hn
      (List.mem_of_find?_eq_some hshape.type) hshape.identifiers hx
    refine .record hshape hk fun field hf => ?_
    obtain ⟨m, hm, rfl⟩ := List.mem_map.mp hf
    have hm := Members.mem_sort.mp hm
    exact ih m hm (fun shape hs' => hs shape (mem_shapes_object path hm hs'))
      (fun p l hl => hu p l (mem_preorder_object path hm hl)) (hvalue _ hf)

end Node

namespace Artifacts

/-- Where no list is empty or mixed, the codec of the root gives every value of
the root's type back, and so does the codec of the document. -/
theorem ofJson_returns (h : ofJson options value = .ok artifacts)
    (hu : (Node.annotate (.ofRoot options.root) value).Uniform) :
    artifacts = (Program.ofJson options value).artifacts ∧
      (∃ meaning, (Program.ofJson options value).Means meaning) ∧
      ∀ meaning, (Program.ofJson options value).Means meaning →
        ∀ x : Value,
          x.HasType (Program.ofJson options value).types (Program.ofJson options value).label →
          ∃ json, (Program.ofJson options value).encoder.run meaning.encode x = some json ∧
            (Program.ofJson options value).decoder.run meaning.decode json = some x ∧
            meaning.encode (Program.ofJson options value).entry x = some json ∧
            meaning.decode (Program.ofJson options value).entry json = some x := by
  obtain ⟨hc, ha⟩ := ofJson_ok h
  refine ⟨ha, ⟨_, Program.means_meaning hc⟩, fun meaning hm x hx => ?_⟩
  have hn : ((Program.ofJson options value).types.map (·.name)).Nodup := by
    rw [Program.ofJson, Program.types_ofNode, List.map_map,
      show TypeDecl.name ∘ TypeDecl.ofShape = Shape.name from funext TypeDecl.name_ofShape]
    exact hc.nodup_names
  obtain ⟨json, he, hd⟩ := Node.returns _ hn (Program.means_shapes hc hm) hu hx
  exact ⟨json, he, hd, (Program.encode_entry hm x).trans he, (Program.decode_entry hm json).trans hd⟩

/-- A list of numbers and a record inside a record. -/
def nested : Json :=
  .object [("b", .object [("c", .null)]), ("a", .list [.number (.integer 1)])]

theorem uniform_nested : (Node.annotate (.ofRoot Path.defaultRoot) nested).Uniform := by
  intro path items h
  have hp : (Node.annotate (.ofRoot Path.defaultRoot) nested).preorder.filter
      (fun | .list .. => true | _ => false) =
        [.list ⟨"Root", [.field "a"]⟩
          [.scalar ⟨"Root", [.field "a", .position 0]⟩ (.number (Double.ofInt 1))]] := rfl
  have h : Node.list path items ∈ _ := hp ▸ List.mem_filter.mpr ⟨h, rfl⟩
  obtain ⟨rfl, rfl⟩ := Node.list.inj (List.mem_singleton.mp h)
  exact ⟨nofun, rfl⟩

/-- A record with an empty list, which the document does not have. -/
theorem ofJson_returns_nested :
    ∃ artifacts, ofJson {} nested = .ok artifacts ∧
      (Node.annotate (.ofRoot Path.defaultRoot) nested).Uniform ∧
      ∀ meaning, (Program.ofJson {} nested).Means meaning →
        ∃ json, meaning.encode "Root" (.record [("a", .list []), ("b", .record [("c", .unit)])]) =
            some json ∧
          meaning.decode "Root" json =
            some (.record [("a", .list []), ("b", .record [("c", .unit)])]) := by
  obtain ⟨artifacts, h⟩ : ∃ artifacts, ofJson {} nested = .ok artifacts := ⟨_, rfl⟩
  have ht : (Program.ofJson {} nested).types =
      [.record "Root" [("a", .list .float), ("b", .named "B")], .record "B" [("c", .unit)]] := rfl
  have hx : (Value.record [("a", .list []), ("b", .record [("c", .unit)])]).HasType
      (Program.ofJson {} nested).types (.named "Root") := by
    have hb : TypeDecl.record "B" [("c", .unit)] ∈ (Program.ofJson {} nested).types := by simp [ht]
    exact .record (ht ▸ List.mem_cons_self) rfl
      (.cons (.list nofun) (.cons (.record hb rfl (.cons .unit .nil)) .nil))
  refine ⟨artifacts, h, uniform_nested, fun meaning hm => ?_⟩
  obtain ⟨json, -, -, he, hd⟩ := (ofJson_returns h uniform_nested).2.2 meaning hm _ hx
  exact ⟨json, he, hd⟩

end Artifacts

end ElmCodec
