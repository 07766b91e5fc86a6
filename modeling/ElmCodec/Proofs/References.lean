import ElmCodec.Proofs.Programs
import Mathlib.Data.List.Perm.Basic

/-!
# References form a tree

A label refers to a declared type by its name, and so do the decoder and the
encoder of a node with that label. Each shape of a document is referred to once,
from the root or from an earlier shape, and refers to later shapes only.
-/

namespace ElmCodec

-- ---------------------------------------------------------------------------
-- References
-- ---------------------------------------------------------------------------

def Decoder.references : Decoder → List String
  | named type => [type]
  | list item => item.references
  | _ => []

def Encoder.references : Encoder → List String
  | named type => [type]
  | list item => item.references
  | _ => []

def DecoderBody.references : DecoderBody → List String
  | empty => []
  | apply _ fields | pipe _ fields => fields.flatMap (·.2.references)
  | oneOf alternatives => alternatives.flatMap (·.2.references)
  | expression decoder => decoder.references

def EncoderBody.references : EncoderBody → List String
  | empty => []
  | object fields => fields.flatMap (·.encoder.references)
  | cases branches => branches.flatMap (·.2.references)
  | expression encoder => encoder.references

def TypeDecl.references : TypeDecl → List String
  | record _ fields => fields.flatMap (·.2.names)
  | union _ variants => variants.flatMap (·.2.names)

def Shape.references (shape : Shape) : List String := (TypeDecl.ofShape shape).references

theorem Decoder.ofNode_mixed (path : Path) (h : Node.isMixed (first :: rest) = true) :
    ofNode (.list path (first :: rest)) = .list (.named (typeName path)) := by
  simp [ofNode, h]

theorem Decoder.ofNode_uniform (path : Path) (h : Node.isMixed (first :: rest) = false) :
    ofNode (.list path (first :: rest)) = .list (ofNode first) := by
  simp [ofNode, h]

theorem Decoder.references_ofNode (node : Node) : (ofNode node).references = node.label.names := by
  induction node using Node.inductFirst with
  | scalar path value => cases value <;> rfl
  | object path members => rfl
  | empty path => rfl
  | mixed path first rest hm =>
    rw [ofNode_mixed path hm, Node.label_list_mixed path hm]
    rfl
  | uniform path first rest hm ih =>
    rw [ofNode_uniform path hm, Node.label_list_uniform path hm]
    exact ih

theorem Encoder.ofNode_mixed (path : Path) (h : Node.isMixed (first :: rest) = true) :
    ofNode (.list path (first :: rest)) = .list (.named (typeName path)) := by
  simp [ofNode, h]

theorem Encoder.ofNode_uniform (path : Path) (h : Node.isMixed (first :: rest) = false) :
    ofNode (.list path (first :: rest)) = .list (ofNode first) := by
  simp [ofNode, h]

theorem Encoder.references_ofNode (node : Node) : (ofNode node).references = node.label.names := by
  induction node using Node.inductFirst with
  | scalar path value => cases value <;> rfl
  | object path members => rfl
  | empty path => rfl
  | mixed path first rest hm =>
    rw [ofNode_mixed path hm, Node.label_list_mixed path hm]
    rfl
  | uniform path first rest hm ih =>
    rw [ofNode_uniform path hm, Node.label_list_uniform path hm]
    exact ih

namespace Shape

theorem references_ofMembers (path : Path) (members : List (String × Node)) :
    (ofMembers path members).references = (Members.sort members).flatMap (·.2.label.names) := by
  simp [references, ofMembers, TypeDecl.ofShape, TypeDecl.references, field, List.flatMap_map]

theorem map_variants (f : Variant → α) (name : String) (index : Nat)
    (parts : List (Label × Node)) :
    (variants name index parts).map f =
      parts.mapIdx fun i r => f ⟨name ++ toString (index + i), r.1, r.2⟩ := by
  induction parts generalizing index with
  | nil => rfl
  | cons part rest ih => simp [variants, ih, List.mapIdx_cons, Nat.add_assoc, Nat.add_comm 1]

theorem labels_variants (name : String) (index : Nat) (parts : List (Label × Node)) :
    ((variants name index parts).map fun variant => (variant.label, variant.exemplar)) = parts := by
  induction parts generalizing index with
  | nil => rfl
  | cons part rest ih => simp [variants, ih]

theorem mem_variants {name : String} (h : variant ∈ variants name index parts) :
    (variant.label, variant.exemplar) ∈ parts := by
  rw [← labels_variants name index parts]
  exact List.mem_map_of_mem h

theorem references_ofItems (path : Path) (items : List Node) :
    (ofItems path items).references = (Node.representatives items).flatMap (·.1.names) := by
  conv_rhs => rw [← labels_variants (typeName path) 0 (Node.representatives items)]
  simp [references, ofItems, TypeDecl.ofShape, TypeDecl.references, List.flatMap_map]

def Labelled : Shape → Prop
  | record _ _ fields => ∀ field ∈ fields, field.label = field.node.label
  | sum _ _ variants => ∀ variant ∈ variants, variant.label = variant.exemplar.label

theorem labelled_ofMembers (path : Path) (members : List (String × Node)) :
    (ofMembers path members).Labelled := by
  intro f hf
  obtain ⟨m, -, rfl⟩ := List.mem_map.mp hf
  rfl

theorem labelled_ofItems (path : Path) (items : List Node) : (ofItems path items).Labelled := by
  intro v hv
  exact (Node.mem_representatives (mem_variants hv)).2

theorem labelled_of_mem {node : Node} (h : shape ∈ node.shapes) : shape.Labelled := by
  obtain ⟨part, -, hp⟩ := List.mem_filterMap.mp h
  cases part with
  | scalar path value => simp [Node.shape?] at hp
  | list path items =>
    simp only [Node.shape?, Option.ite_none_right_eq_some, Option.some.injEq] at hp
    exact hp.2 ▸ labelled_ofItems path items
  | object path members => exact Option.some.inj hp ▸ labelled_ofMembers path members

end Shape

theorem DecoderDecl.references_ofShape {shape : Shape} (h : shape.Labelled) :
    (ofShape shape).body.references = shape.references := by
  cases shape with
  | record name path fields =>
    have hf : (fields.map fun field => (field.key, Decoder.ofNode field.node)).flatMap
        (·.2.references) = (Shape.record name path fields).references := by
      simp only [Shape.references, TypeDecl.ofShape, TypeDecl.references, List.flatMap_map,
        Decoder.references_ofNode]
      exact List.flatMap_congr fun field hm => by rw [h field hm]
    rw [← hf]
    simp only [ofShape, DecoderBody.ofFields]
    split
    · simp_all [DecoderBody.references]
    · split <;> rfl
  | sum name path variants =>
    simp only [Shape.references, TypeDecl.ofShape, TypeDecl.references, ofShape,
      DecoderBody.references, List.flatMap_map, Decoder.references_ofNode]
    exact List.flatMap_congr fun variant hm => by rw [h variant hm]

theorem EncoderDecl.references_ofShape {shape : Shape} (h : shape.Labelled) :
    (ofShape shape).body.references = shape.references := by
  cases shape with
  | record name path fields =>
    have hf : (fields.map fun field => FieldEncoder.mk field.key (Encoder.ofNode field.node)
        field.identifier).flatMap (·.encoder.references) =
        (Shape.record name path fields).references := by
      simp only [Shape.references, TypeDecl.ofShape, TypeDecl.references, List.flatMap_map,
        Encoder.references_ofNode]
      exact List.flatMap_congr fun field hm => by rw [h field hm]
    rw [← hf]
    simp only [ofShape, EncoderBody.ofFields]
    split
    · simp_all [EncoderBody.references]
    · rfl
  | sum name path variants =>
    simp only [Shape.references, TypeDecl.ofShape, TypeDecl.references, ofShape,
      EncoderBody.references, List.flatMap_map, Encoder.references_ofNode]
    exact List.flatMap_congr fun variant hm => by rw [h variant hm]

-- ---------------------------------------------------------------------------
-- Every shape is referred to once
-- ---------------------------------------------------------------------------

namespace Node

theorem names_parts {parts : List α} {label : α → Label} {below : α → List Shape}
    (h : ∀ part ∈ parts, ((below part).map Shape.name).Perm
      ((label part).names ++ (below part).flatMap Shape.references)) :
    ((parts.flatMap below).map Shape.name).Perm
      (parts.flatMap (fun part => (label part).names) ++
        (parts.flatMap below).flatMap Shape.references) := by
  rw [List.map_flatMap, List.flatMap_assoc]
  refine (List.Perm.flatMap_left _ h).trans ?_
  exact (List.flatMap_append_perm parts _ _).symm

theorem names_shapes (path : Path) (json : Json) :
    ((annotate path json).shapes.map Shape.name).Perm
      ((annotate path json).label.names ++
        (annotate path json).shapes.flatMap Shape.references) := by
  induction json using Json.induct generalizing path with
  | list items ih =>
    cases items with
    | nil => rfl
    | cons first rest =>
      rw [annotate]
      cases hm : isMixed (annotateItems path 0 (first :: rest)) with
      | true =>
        rw [shapes_mixed path hm, label_list_mixed path hm, List.map_cons, List.flatMap_cons,
          Shape.references_ofItems]
        refine .cons _ ?_
        refine (names_parts fun item hi => ?_).trans
          (.append_right _ (names_representatives (namesApart_annotateItems path 0 _)).symm)
        obtain ⟨i, json, hj, rfl⟩ := mem_annotateItems hi
        exact ih json hj _
      | false =>
        rw [shapes_uniform path hm, annotateItems, label_list_uniform path hm, List.flatMap_cons,
          shapes_rest_eq_nil hm, List.append_nil]
        exact ih first List.mem_cons_self _
  | object members ih =>
    rw [annotate, shapes_object, label_object, List.map_cons, List.flatMap_cons,
      Shape.references_ofMembers]
    refine .cons _ (names_parts fun m hm => ?_)
    obtain ⟨member, hj, rfl⟩ := mem_annotateMembers (Members.mem_sort.mp hm)
    exact ih member hj _
  | _ => rfl

end Node

-- ---------------------------------------------------------------------------
-- References point forward
-- ---------------------------------------------------------------------------

/-- Each definition refers to later ones only. -/
inductive Forward (name : α → String) (references : α → List String) : List α → Prop
  | nil : Forward name references []
  | cons : (∀ type ∈ references first, type ∈ rest.map name) → Forward name references rest →
      Forward name references (first :: rest)

namespace Forward

variable {name : α → String} {references : α → List String}

theorem append (hf : Forward name references first) (hs : Forward name references second) :
    Forward name references (first ++ second) := by
  induction hf with
  | nil => exact hs
  | @cons decl rest h _ ih =>
    have hlater : ∀ type ∈ references decl, type ∈ (rest ++ second).map name := by
      intro type ht
      rw [List.map_append]
      exact List.mem_append_left _ (h type ht)
    exact .cons hlater ih

theorem flatMap {parts : List β} {below : β → List α}
    (h : ∀ part ∈ parts, Forward name references (below part)) :
    Forward name references (parts.flatMap below) := by
  induction parts with
  | nil => exact .nil
  | cons part rest ih =>
    obtain ⟨hp, hr⟩ := List.forall_mem_cons.mp h
    exact hp.append (ih hr)

theorem map (f : α → β) {nameOf : β → String} {referencesOf : β → List String}
    (hn : ∀ a, nameOf (f a) = name a) (hr : ∀ a ∈ l, referencesOf (f a) = references a)
    (h : Forward name references l) : Forward nameOf referencesOf (l.map f) := by
  induction h with
  | nil => exact .nil
  | @cons first rest hf _ ih =>
    obtain ⟨hr, hrs⟩ := List.forall_mem_cons.mp hr
    refine .cons (fun type ht => ?_) (ih hrs)
    rw [List.map_map, show nameOf ∘ f = name from funext hn]
    exact hf type (hr ▸ ht)

theorem tail (h : Forward name references (first :: rest)) : Forward name references rest := by
  cases h with
  | cons _ h => exact h

theorem drop (h : Forward name references (before ++ after)) : Forward name references after := by
  induction before with
  | nil => exact h
  | cons first rest ih => exact ih h.tail

theorem mem_tail (h : Forward name references (first :: rest)) (ha : a ∈ first :: rest)
    (ht : type ∈ references a) : type ∈ rest.map name := by
  induction rest generalizing first with
  | nil =>
    cases h with
    | cons hf _ =>
      obtain rfl := List.mem_singleton.mp ha
      exact hf type ht
  | cons second rest ih =>
    cases h with
    | cons hf hr =>
      rcases List.mem_cons.mp ha with rfl | ha
      · exact hf type ht
      · exact List.mem_cons_of_mem _ (ih hr ha)

end Forward

namespace Node

theorem mem_names_shapes {path : Path} {json : Json}
    (h : type ∈ (annotate path json).label.names) :
    type ∈ (annotate path json).shapes.map Shape.name :=
  (names_shapes path json).mem_iff.mpr (List.mem_append_left _ h)

theorem forward_shapes (path : Path) (json : Json) :
    Forward Shape.name Shape.references (annotate path json).shapes := by
  induction json using Json.induct generalizing path with
  | list items ih =>
    rw [annotate]
    have hbelow : Forward Shape.name Shape.references
        ((annotateItems path 0 items).flatMap shapes) := by
      refine .flatMap fun item hi => ?_
      obtain ⟨i, json, hj, rfl⟩ := mem_annotateItems hi
      exact ih json hj _
    cases hm : isMixed (annotateItems path 0 items) with
    | true =>
      rw [shapes_mixed path hm]
      -- The sum type refers to what its items declare, and that comes after it.
      refine .cons (fun type ht => ?_) hbelow
      rw [Shape.references_ofItems] at ht
      obtain ⟨r, hr, ht⟩ := List.mem_flatMap.mp ht
      obtain ⟨hi, hl⟩ := mem_representatives hr
      rw [hl] at ht
      rw [List.map_flatMap]
      refine List.mem_flatMap.mpr ⟨r.2, hi, ?_⟩
      obtain ⟨i, json, hj, he⟩ := mem_annotateItems hi
      rw [he] at ht ⊢
      exact mem_names_shapes ht
    | false =>
      rw [shapes_uniform path hm]
      exact hbelow
  | object members ih =>
    rw [annotate, shapes_object]
    refine .cons (fun type ht => ?_) (.flatMap fun m hm => ?_)
    · rw [Shape.references_ofMembers] at ht
      obtain ⟨m, hm, ht⟩ := List.mem_flatMap.mp ht
      rw [List.map_flatMap]
      refine List.mem_flatMap.mpr ⟨m, hm, ?_⟩
      obtain ⟨member, hj, rfl⟩ := mem_annotateMembers (Members.mem_sort.mp hm)
      exact mem_names_shapes ht
    · obtain ⟨member, hj, rfl⟩ := mem_annotateMembers (Members.mem_sort.mp hm)
      exact ih member hj _
  | _ => exact .nil

end Node

end ElmCodec
