import ElmCodec.Proofs.References

/-!
# Generated modules are closed

A module defines no name twice. What it refers to, it defines, and the
references to its types form a tree: every declared type is referred to once,
by the root or by a declaration that comes before its own.
-/

namespace ElmCodec

def TypeDecl.declares : TypeDecl → List String
  | record name _ => [name]
  | union name variants => name :: variants.map (·.1)

namespace Program

def declaredNames (program : Program) : List String := program.types.flatMap TypeDecl.declares

/-- All names that are defined at the top of the module. -/
def definedNames (program : Program) : List String :=
  program.declaredNames ++
    program.decoderDefinitions.map (fun decl => Decoder.definitionName decl.name) ++
    program.encoderDefinitions.map fun decl => Encoder.definitionName decl.name

/-- The type names in the root's label and in those of all fields and variants. -/
def typeReferences (program : Program) : List String :=
  program.label.names ++ program.types.flatMap TypeDecl.references

def decoderReferences (program : Program) : List String :=
  program.decoder.references ++ program.decoderDefinitions.flatMap (·.body.references)

def encoderReferences (program : Program) : List String :=
  program.encoder.references ++ program.encoderDefinitions.flatMap (·.body.references)

structure Closed (program : Program) : Prop where
  nodup : program.definedNames.Nodup
  prelude : ∀ name ∈ program.declaredNames, name ∉ preludeNames
  types : ∀ type ∈ program.typeReferences, (program.types.map (·.name)).count type = 1
  decoders : ∀ type ∈ program.decoderReferences, (program.decoders.map (·.name)).count type = 1
  encoders : ∀ type ∈ program.encoderReferences, (program.encoders.map (·.name)).count type = 1
  once : ∀ decl ∈ program.types, program.typeReferences.count decl.name = 1
  earlier : ∀ before decl after, program.types = before ++ decl :: after →
    decl.name ∈ program.label.names ++ before.flatMap TypeDecl.references

end Program

-- ---------------------------------------------------------------------------
-- Names of definitions
-- ---------------------------------------------------------------------------

theorem Decoder.definitionName_injective : Function.Injective Decoder.definitionName :=
  fun _ _ h => String.append_right_inj _ |>.mp h

theorem Encoder.definitionName_injective : Function.Injective Encoder.definitionName :=
  fun _ _ h => String.append_right_inj _ |>.mp h

theorem isTypeName_decoder (type : String) : isTypeName (Decoder.definitionName type) = false := by
  simp [isTypeName, Decoder.definitionName, String.toList_append]

theorem isTypeName_encoder (type : String) : isTypeName (Encoder.definitionName type) = false := by
  simp [isTypeName, Encoder.definitionName, String.toList_append]

theorem decoder_ne_encoder (a b : String) :
    Decoder.definitionName a ≠ Encoder.definitionName b := by
  intro h
  have := congrArg String.toList h
  simp [Decoder.definitionName, Encoder.definitionName, String.toList_append] at this

-- ---------------------------------------------------------------------------
-- Checked documents
-- ---------------------------------------------------------------------------

theorem TypeDecl.declares_ofShape (shape : Shape) : (ofShape shape).declares = shape.declares := by
  cases shape with
  | record name path fields => rfl
  | sum name path variants => simp [ofShape, declares, Shape.declares]

theorem Shape.name_mem_declares (shape : Shape) : shape.name ∈ shape.declares := by
  cases shape <;> exact List.mem_cons_self

namespace Checked

variable {root : Node}

theorem names_sublist (shapes : List Shape) :
    (shapes.map Shape.name).Sublist (shapes.flatMap Shape.declares) := by
  induction shapes with
  | nil => exact .slnil
  | cons shape rest ih =>
    exact (List.singleton_sublist.mpr shape.name_mem_declares).append ih

theorem nodup_names (h : Checked root) : (root.shapes.map Shape.name).Nodup :=
  (names_sublist root.shapes).nodup h.nodup

theorem nodup_definitions (h : Checked root) :
    (root.documentNames ++ root.shapes.map Shape.name).Nodup := by
  unfold Node.documentNames
  split
  · exact h.nodup_names
  · rename_i hr
    have hd := h.document (by simpa using hr)
    exact List.nodup_cons.mpr ⟨fun hm => hd ((names_sublist _).subset hm), h.nodup_names⟩

end Checked

namespace Program

variable {path : Path} {json : Json}

theorem names_decoderDefinitions :
    (ofNode (.annotate path json)).decoderDefinitions.map (·.name) =
      (Node.annotate path json).documentNames ++
        (Node.annotate path json).shapes.map Shape.name := by
  simp [decoderDefinitions_ofNode, Function.comp_def]

theorem names_encoderDefinitions :
    (ofNode (.annotate path json)).encoderDefinitions.map (·.name) =
      (Node.annotate path json).documentNames ++
        (Node.annotate path json).shapes.map Shape.name := by
  simp [encoderDefinitions_ofNode, Function.comp_def]

theorem declaredNames_ofNode :
    (ofNode (.annotate path json)).declaredNames =
      (Node.annotate path json).shapes.flatMap Shape.declares := by
  simp [declaredNames, List.flatMap_map, TypeDecl.declares_ofShape]

theorem nodup_definedNames (h : Checked (.annotate path json)) :
    (ofNode (.annotate path json)).definedNames.Nodup := by
  have hd := h.nodup_definitions
  have hname : ∀ name ∈ (ofNode (.annotate path json)).declaredNames, isTypeName name = true :=
    fun name hn => (h.declarable name (declaredNames_ofNode ▸ hn)).1
  refine List.nodup_append.mpr ⟨List.nodup_append.mpr ⟨?_, ?_, ?_⟩, ?_, ?_⟩
  · rw [declaredNames_ofNode]
    exact h.nodup
  · have := hd.map Decoder.definitionName_injective
    rw [← names_decoderDefinitions, List.map_map] at this
    exact this
  · rintro name hn _ hm rfl
    obtain ⟨decl, -, rfl⟩ := List.mem_map.mp hm
    simpa [isTypeName_decoder] using hname _ hn
  · have := hd.map Encoder.definitionName_injective
    rw [← names_encoderDefinitions, List.map_map] at this
    exact this
  · rintro name hn _ hm rfl
    obtain ⟨decl, -, rfl⟩ := List.mem_map.mp hm
    rcases List.mem_append.mp hn with hn | hn
    · simpa [isTypeName_encoder] using hname _ hn
    · obtain ⟨other, -, he⟩ := List.mem_map.mp hn
      exact decoder_ne_encoder _ _ he

theorem typeReferences_perm :
    (ofNode (.annotate path json)).typeReferences.Perm
      ((Node.annotate path json).shapes.map Shape.name) := by
  rw [typeReferences, types_ofNode, List.flatMap_map]
  exact (Node.names_shapes path json).symm

theorem mem_names_of_mentions (h : type ∈ (Node.annotate path json).label.names ++
      ((Node.annotate path json).documentNames.flatMap fun _ =>
        (Node.annotate path json).label.names) ++
      (Node.annotate path json).shapes.flatMap Shape.references) :
    type ∈ (Node.annotate path json).shapes.map Shape.name := by
  rcases List.mem_append.mp h with h | h
  · rcases List.mem_append.mp h with h | h
    · exact Node.mem_names_shapes h
    · obtain ⟨_, -, h⟩ := List.mem_flatMap.mp h
      exact Node.mem_names_shapes h
  · exact (Node.names_shapes path json).mem_iff.mpr (List.mem_append_right _ h)

theorem mem_decoderReferences (h : type ∈ (ofNode (.annotate path json)).decoderReferences) :
    type ∈ (Node.annotate path json).shapes.map Shape.name := by
  refine mem_names_of_mentions ?_
  rw [decoderReferences, decoderDefinitions_ofNode, List.flatMap_append, List.flatMap_map,
    List.flatMap_map, List.flatMap_congr fun shape hs =>
      DecoderDecl.references_ofShape (Shape.labelled_of_mem hs), ← List.append_assoc] at h
  simpa only [DecoderBody.references, Decoder.references_ofNode, ofNode, assemble] using h

theorem mem_encoderReferences (h : type ∈ (ofNode (.annotate path json)).encoderReferences) :
    type ∈ (Node.annotate path json).shapes.map Shape.name := by
  refine mem_names_of_mentions ?_
  rw [encoderReferences, encoderDefinitions_ofNode, List.flatMap_append, List.flatMap_map,
    List.flatMap_map, List.flatMap_congr fun shape hs =>
      EncoderDecl.references_ofShape (Shape.labelled_of_mem hs), ← List.append_assoc] at h
  simpa only [EncoderBody.references, Encoder.references_ofNode, ofNode, assemble] using h

theorem referred_earlier (h : Checked (.annotate path json))
    (hs : (Node.annotate path json).shapes = before ++ shape :: after) :
    shape.name ∈ (Node.annotate path json).label.names ++ before.flatMap Shape.references := by
  have hm : shape.name ∈ (Node.annotate path json).label.names ++
      (Node.annotate path json).shapes.flatMap Shape.references :=
    (Node.names_shapes path json).mem_iff.mp (List.mem_map_of_mem (by simp [hs]))
  have hf := Node.forward_shapes path json
  have hn := h.nodup_names
  rw [hs] at hm hf hn
  rw [List.flatMap_append, ← List.append_assoc] at hm
  refine (List.mem_append.mp hm).resolve_right fun hlater => ?_
  obtain ⟨other, ho, hr⟩ := List.mem_flatMap.mp hlater
  rw [List.map_append] at hn
  exact (List.nodup_cons.mp (List.nodup_append.mp hn).2.1).1 (hf.drop.mem_tail ho hr)

theorem closed_ofNode (h : Checked (.annotate path json)) :
    (ofNode (.annotate path json)).Closed where
  nodup := nodup_definedNames h
  prelude name hn := (h.declarable name (declaredNames_ofNode ▸ hn)).2
  types type ht := by
    have hm := typeReferences_perm.mem_iff.mp ht
    simpa [Function.comp_def] using List.count_eq_one_of_mem h.nodup_names hm
  decoders type ht := by
    have hm := mem_decoderReferences ht
    simpa [Function.comp_def] using List.count_eq_one_of_mem h.nodup_names hm
  encoders type ht := by
    have hm := mem_encoderReferences ht
    simpa [Function.comp_def] using List.count_eq_one_of_mem h.nodup_names hm
  once decl hd := by
    rw [types_ofNode] at hd
    obtain ⟨shape, hs, rfl⟩ := List.mem_map.mp hd
    rw [typeReferences_perm.count_eq, TypeDecl.name_ofShape]
    exact List.count_eq_one_of_mem h.nodup_names (List.mem_map_of_mem hs)
  earlier before decl after ht := by
    rw [types_ofNode, List.map_eq_append_iff] at ht
    obtain ⟨shapes, later, hs, rfl, hl⟩ := ht
    obtain ⟨shape, rest, rfl, rfl, rfl⟩ := List.map_eq_cons_iff.mp hl
    rw [TypeDecl.name_ofShape, List.flatMap_map]
    exact referred_earlier h hs

end Program

/-- What a conversion gives is the text of a closed program. -/
theorem Artifacts.ofJson_closed (h : ofJson options value = .ok artifacts) :
    artifacts = (Program.ofJson options value).artifacts ∧
      (Program.ofJson options value).Closed := by
  obtain ⟨hc, ha⟩ := ofJson_ok h
  exact ⟨ha, Program.closed_ofNode hc⟩

/-- A record, a text and an empty list. -/
theorem Artifacts.ofJson_closed_mixed :
    ∃ artifacts, ofJson {} (.list [.object [("a", .null)], .string "x", .list []]) = .ok artifacts ∧
      (Program.ofJson {} (.list [.object [("a", .null)], .string "x", .list []])).Closed := by
  obtain ⟨artifacts, h⟩ : ∃ artifacts,
      ofJson {} (.list [.object [("a", .null)], .string "x", .list []]) = .ok artifacts := ⟨_, rfl⟩
  exact ⟨artifacts, h, (ofJson_closed h).2⟩

end ElmCodec
