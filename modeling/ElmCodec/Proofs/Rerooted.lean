import ElmCodec.Proofs.Alike
import ElmCodec.Proofs.LabelCodecs
import ElmCodec.Proofs.RootNames

/-!
# Trees under another root label

A name below the root does not mention the root's label. So a tree with all its
declarations below the root is the same under any label: its label, decoder and
encoder stay, and the same is generated for what it declares.
-/

namespace ElmCodec

open List (Forall₂)

def Path.rerooted (root : String) (path : Path) : Path := { path with root }

theorem Path.rerooted_field (root : String) (path : Path) (key : String) :
    (path.field key).rerooted root = (path.rerooted root).field key := by
  unfold field
  split <;> rfl

theorem typeName_rerooted (root : String) {path : Path} (h : path.isRoot = false) :
    typeName (path.rerooted root) = typeName path := by
  have hr : (path.rerooted root).isRoot = false := h
  rw [typeName, typeName, h, hr]
  rfl

namespace Node

-- ---------------------------------------------------------------------------
-- Trees
-- ---------------------------------------------------------------------------

mutual

def rerooted (root : String) : Node → Node
  | scalar path value => scalar (path.rerooted root) value
  | list path items => list (path.rerooted root) (rerootedItems root items)
  | object path members => object (path.rerooted root) (rerootedMembers root members)

def rerootedItems (root : String) : List Node → List Node
  | [] => []
  | item :: rest => item.rerooted root :: rerootedItems root rest

def rerootedMembers (root : String) : List (String × Node) → List (String × Node)
  | [] => []
  | (key, node) :: rest => (key, node.rerooted root) :: rerootedMembers root rest

end

theorem rerooted_list (root : String) (path : Path) (items : List Node) :
    (list path items).rerooted root = list (path.rerooted root) (items.map (rerooted root)) := by
  have h : rerootedItems root items = items.map (rerooted root) := by
    induction items with
    | nil => rfl
    | cons item rest ih => simp [rerootedItems, ih]
  rw [rerooted, h]

theorem rerooted_object (root : String) (path : Path) (members : List (String × Node)) :
    (object path members).rerooted root =
      object (path.rerooted root) (members.map fun m => (m.1, m.2.rerooted root)) := by
  have h : rerootedMembers root members = members.map fun m => (m.1, m.2.rerooted root) := by
    induction members with
    | nil => rfl
    | cons member rest ih => simp [rerootedMembers, ih]
  rw [rerooted, h]

theorem isRecord_rerooted (root : String) (node : Node) :
    (node.rerooted root).isRecord = node.isRecord := by
  cases node <;> rfl

theorem annotate_rerooted (root : String) (path : Path) (json : Json) :
    annotate (path.rerooted root) json = (annotate path json).rerooted root := by
  induction json using Json.induct generalizing path with
  | list items ih =>
    rw [annotate, annotate, rerooted_list, annotateItems_eq_mapIdx, annotateItems_eq_mapIdx]
    congr 1
    refine List.ext_getElem (by simp) fun i hi _ => ?_
    simp only [List.getElem_mapIdx, List.getElem_map]
    exact ih _ (List.getElem_mem _) (path.position (0 + i))
  | object members ih =>
    rw [annotate, annotate, rerooted_object, annotateMembers_eq_map, annotateMembers_eq_map,
      List.map_map]
    congr 1
    refine List.map_congr_left fun m hm => ?_
    exact congrArg (m.1, ·) (Path.rerooted_field root path m.1 ▸ ih m hm (path.field m.1))
  | _ => rfl

-- ---------------------------------------------------------------------------
-- Labels and codecs
-- ---------------------------------------------------------------------------

/-- All declarations of the tree are below the root. -/
def DeclaresBelow (node : Node) : Prop := ∀ shape ∈ node.shapes, shape.path.isRoot = false

namespace DeclaresBelow

theorem item {path : Path} (h : (list path items).DeclaresBelow) :
    ∀ item ∈ items, item.DeclaresBelow :=
  fun _ hi shape hs => h shape (mem_shapes_list path hi hs)

theorem member {path : Path} (h : (object path members).DeclaresBelow) :
    ∀ m ∈ members, m.2.DeclaresBelow :=
  fun _ hm shape hs => h shape (mem_shapes_object path hm hs)

theorem annotate {path : Path} {json : Json} (h : path.isRoot = false) :
    (Node.annotate path json).DeclaresBelow := by
  intro shape hs
  obtain ⟨part, hp, hs⟩ := List.mem_filterMap.mp hs
  rw [(name_of_shape? hs).2]
  exact isRoot_of_mem_preorder h hp

theorem of_hasShape {path : Path} {json : Json}
    (h : (Node.annotate path json).hasShape = false) :
    (Node.annotate path json).DeclaresBelow := by
  intro shape hs
  obtain ⟨part, hp, hs⟩ := List.mem_filterMap.mp hs
  rw [(name_of_shape? hs).2, ← Bool.not_eq_true]
  intro hr
  have hroot := hasShape_of_isRoot hp (hasShape_iff.mpr ⟨shape, hs⟩) hr
  simp [h] at hroot

theorem typeName_eq {node : Node} (h : node.DeclaresBelow) (hs : node.hasShape = true)
    (root : String) : typeName (node.path.rerooted root) = typeName node.path := by
  obtain ⟨shape, hs⟩ := hasShape_iff.mp hs
  exact typeName_rerooted root ((name_of_shape? hs).2 ▸ h shape (mem_shapes_self hs))

end DeclaresBelow

theorem label_rerooted (root : String) (node : Node) (h : node.DeclaresBelow) :
    (node.rerooted root).label = node.label := by
  induction node using Node.induct with
  | scalar path value => rfl
  | list path items ih =>
    -- Items keep their labels, so the list stays mixed or uniform.
    have hitems : ∀ item ∈ items, (item.rerooted root).label = item.label :=
      fun item hi => ih item hi (h.item item hi)
    have hm := isMixed_map hitems
    rw [rerooted_list]
    cases hmixed : isMixed items with
    | true =>
      rw [label_list_mixed _ (hm.trans hmixed), label_list_mixed path hmixed]
      exact congrArg (Label.list <| .named ·) (h.typeName_eq hmixed root)
    | false =>
      cases items with
      | nil => rfl
      | cons first rest =>
        rw [List.map_cons] at hm ⊢
        rw [label_list_uniform _ (hm.trans hmixed), label_list_uniform path hmixed,
          hitems first List.mem_cons_self]
  | object path members ih =>
    rw [rerooted_object, label_object, label_object]
    exact congrArg Label.named (h.typeName_eq rfl root)

theorem isMixed_rerooted (root : String) (h : ∀ item ∈ items, item.DeclaresBelow) :
    isMixed (items.map (rerooted root)) = isMixed items :=
  isMixed_map fun item hi => label_rerooted root item (h item hi)

theorem hasShape_rerooted (root : String) (path : Path) (json : Json) :
    ((annotate path json).rerooted root).hasShape = (annotate path json).hasShape := by
  cases json with
  | list items =>
    rw [annotate, rerooted_list]
    refine isMixed_rerooted root fun item hi => ?_
    obtain ⟨i, value, -, rfl⟩ := mem_annotateItems hi
    exact .annotate (path.isRoot_position i)
  | object members => rw [annotate, rerooted_object, hasShape, hasShape]
  | _ => rfl

theorem leadsToEmpty_rerooted (root : String) (node : Node) (h : node.DeclaresBelow) :
    (node.rerooted root).leadsToEmpty = node.leadsToEmpty := by
  induction node using Node.inductFirst with
  | scalar path value => rfl
  | object path members => rfl
  | empty path => rfl
  | mixed path first rest hm =>
    have hr := isMixed_rerooted root h.item
    rw [rerooted_list]
    rw [List.map_cons] at hr ⊢
    rw [leadsToEmpty_mixed _ (hr.trans hm), leadsToEmpty_mixed path hm]
  | uniform path first rest hm ih =>
    have hr := isMixed_rerooted root h.item
    rw [rerooted_list]
    rw [List.map_cons] at hr ⊢
    rw [leadsToEmpty_uniform _ (hr.trans hm), leadsToEmpty_uniform path hm,
      ih (h.item first List.mem_cons_self)]

end Node

theorem Decoder.ofNode_rerooted (root : String) {node : Node} (h : node.DeclaresBelow) :
    ofNode (node.rerooted root) = ofNode node := by
  rw [ofNode_eq_ofLabel, ofNode_eq_ofLabel, node.label_rerooted root h,
    node.leadsToEmpty_rerooted root h]

theorem Encoder.ofNode_rerooted (root : String) {node : Node} (h : node.DeclaresBelow) :
    ofNode (node.rerooted root) = ofNode node := by
  rw [ofNode_eq_ofLabel, ofNode_eq_ofLabel, node.label_rerooted root h,
    node.leadsToEmpty_rerooted root h]

-- ---------------------------------------------------------------------------
-- Shapes
-- ---------------------------------------------------------------------------

namespace Shape

structure SameCode (a b : Shape) : Prop where
  type : TypeDecl.ofShape a = .ofShape b
  decoder : DecoderDecl.ofShape a = .ofShape b
  encoder : EncoderDecl.ofShape a = .ofShape b

namespace SameCode

variable {a b c : Shape}

theorem symm (h : a.SameCode b) : b.SameCode a := ⟨h.type.symm, h.decoder.symm, h.encoder.symm⟩

theorem trans (h : a.SameCode b) (h' : b.SameCode c) : a.SameCode c :=
  ⟨h.type.trans h'.type, h.decoder.trans h'.decoder, h.encoder.trans h'.encoder⟩

theorem declares (h : a.SameCode b) : a.declares = b.declares := by
  rw [← TypeDecl.declares_ofShape, ← TypeDecl.declares_ofShape, h.type]

theorem identifiers (h : a.SameCode b) : a.identifiers = b.identifiers := by
  have ht := h.type
  cases a with
  | record name path fields =>
    cases b with
    | record other elsewhere others =>
      have hf := congrArg (List.map (·.1)) (TypeDecl.record.inj ht).2
      simpa [Shape.identifiers, Function.comp_def] using hf
    | sum other elsewhere variants => cases ht
  | sum name path variants =>
    cases b with
    | record other elsewhere others => cases ht
    | sum other elsewhere variants => rfl

end SameCode

theorem Alike.sameCode {a b : Shape} (h : a.Alike b) : a.SameCode b :=
  ⟨h.typeDecl, h.decoderDecl, h.encoderDecl⟩

theorem sameCode_ofMembers {path other : Path} (h : typeName path = typeName other)
    (members : List (String × Node)) :
    (ofMembers path members).SameCode (.ofMembers other members) := by
  rw [ofMembers, ofMembers, h]
  exact ⟨rfl, rfl, rfl⟩

theorem sameCode_ofItems {path other : Path} (h : typeName path = typeName other)
    (items : List Node) : (ofItems path items).SameCode (.ofItems other items) := by
  rw [ofItems, ofItems, h]
  exact ⟨rfl, rfl, rfl⟩

theorem alike_ofMembers_rerooted (root : String) (path : Path)
    (h : ∀ m ∈ members, m.2.DeclaresBelow) :
    (ofMembers path (members.map fun m => (m.1, m.2.rerooted root))).Alike
      (.ofMembers path members) := by
  rw [ofMembers, Members.sort_map fun m : String × Node => m.2.rerooted root, List.map_map]
  refine .record (forall₂_map_map fun m hm => ?_)
  have hm := h m (Members.mem_sort.mp hm)
  exact ⟨rfl, rfl, m.2.label_rerooted root hm, Decoder.ofNode_rerooted root hm,
    Encoder.ofNode_rerooted root hm⟩

theorem alike_ofItems_rerooted (root : String) (path : Path)
    (h : ∀ item ∈ items, item.DeclaresBelow) :
    (ofItems path (items.map (Node.rerooted root))).Alike (.ofItems path items) := by
  refine .ofRepresentatives path ?_
  rw [Node.representatives_map fun item hi => item.label_rerooted root (h item hi),
    List.forall₂_map_left_iff, List.forall₂_same]
  intro r hr
  have hr := h r.2 (Node.mem_representatives hr).1
  exact ⟨rfl, Decoder.ofNode_rerooted root hr, Encoder.ofNode_rerooted root hr⟩

end Shape

namespace Node

theorem forall₂_flatMap_shapes (parts : List α) {node other : α → Node}
    (h : ∀ part ∈ parts, Forall₂ Shape.SameCode (other part).shapes (node part).shapes) :
    Forall₂ Shape.SameCode (parts.flatMap fun part => (other part).shapes)
      (parts.flatMap fun part => (node part).shapes) := by
  rw [List.flatMap_def, List.flatMap_def]
  exact List.rel_flatten (forall₂_map_map h)

theorem shapes_rerooted (root : String) (node : Node) (h : node.DeclaresBelow) :
    Forall₂ Shape.SameCode (node.rerooted root).shapes node.shapes := by
  induction node using Node.induct with
  | scalar path value => exact .nil
  | list path items ih =>
    have hitems := forall₂_flatMap_shapes items fun item hi => ih item hi (h.item item hi)
    have hm := isMixed_rerooted root h.item
    rw [rerooted_list]
    cases hmixed : isMixed items with
    | true =>
      rw [shapes_mixed _ (hm.trans hmixed), shapes_mixed path hmixed, List.flatMap_map]
      have hname := h.typeName_eq hmixed root
      exact .cons ((Shape.alike_ofItems_rerooted root _ h.item).sameCode.trans
        (Shape.sameCode_ofItems hname items)) hitems
    | false =>
      rw [shapes_uniform _ (hm.trans hmixed), shapes_uniform path hmixed, List.flatMap_map]
      exact hitems
  | object path members ih =>
    have hmembers := forall₂_flatMap_shapes (Members.sort members) fun m hm =>
      ih m (Members.mem_sort.mp hm) (h.member m (Members.mem_sort.mp hm))
    rw [rerooted_object, shapes_object, shapes_object,
      Members.sort_map fun m : String × Node => m.2.rerooted root, List.flatMap_map]
    exact .cons ((Shape.alike_ofMembers_rerooted root _ h.member).sameCode.trans
      (Shape.sameCode_ofMembers (h.typeName_eq rfl root) members)) hmembers

end Node

-- ---------------------------------------------------------------------------
-- What is made of a document
-- ---------------------------------------------------------------------------

theorem Program.extend_rerooted (root : String) {path : Path} {json : Json}
    (h : (Node.annotate path json).DeclaresBelow) {make : Shape → α}
    (hmake : ∀ a b, a.SameCode b → make a = make b) :
    extend make [] (.annotate (path.rerooted root) json) =
      extend make [] (.annotate path json) := by
  rw [extend_annotate, extend_annotate, Node.annotate_rerooted]
  exact map_eq_map_of_forall₂ hmake (Node.shapes_rerooted root _ h)

theorem Program.ofNode_rerooted (root : String) {path : Path} {json : Json}
    (h : (Node.annotate path json).DeclaresBelow) :
    ofNode (.annotate (path.rerooted root) json) = ofNode (.annotate path json) := by
  simp only [ofNode, assemble, Node.typeDecls, Node.decoderDecls, Node.encoderDecls,
    Node.documentCodec, extend_rerooted root h fun _ _ hab => hab.type,
    extend_rerooted root h fun _ _ hab => hab.decoder,
    extend_rerooted root h fun _ _ hab => hab.encoder]
  rw [Node.annotate_rerooted, Node.isRecord_rerooted, Node.label_rerooted root _ h,
    Decoder.ofNode_rerooted root h, Encoder.ofNode_rerooted root h]

theorem Checked.of_sameCode {a b : Node} (h : Checked a) (hrecord : b.isRecord = a.isRecord)
    (hshapes : Forall₂ Shape.SameCode b.shapes a.shapes) : Checked b := by
  have hdeclares : b.shapes.flatMap Shape.declares = a.shapes.flatMap Shape.declares := by
    rw [List.flatMap_def, List.flatMap_def,
      map_eq_map_of_forall₂ (fun _ _ hab => hab.declares) hshapes]
  refine ⟨hdeclares ▸ h.declarable, hdeclares ▸ h.nodup,
    fun hb => hdeclares ▸ h.document (hrecord ▸ hb), fun shape hs => ?_⟩
  have hs : shape.identifiers ∈ b.shapes.map Shape.identifiers := List.mem_map_of_mem hs
  rw [map_eq_map_of_forall₂ (fun _ _ hab => hab.identifiers) hshapes] at hs
  obtain ⟨other, ho, he⟩ := List.mem_map.mp hs
  exact he ▸ h.identifiers other ho

theorem Checked.rerooted_iff (root : String) {node : Node} (h : node.DeclaresBelow) :
    Checked (node.rerooted root) ↔ Checked node := by
  have hshapes := Node.shapes_rerooted root node h
  have hsymm := (hshapes.imp fun _ _ hab => hab.symm).flip
  exact ⟨fun hc => hc.of_sameCode (node.isRecord_rerooted root).symm hsymm,
    fun hc => hc.of_sameCode (node.isRecord_rerooted root) hshapes⟩

end ElmCodec
