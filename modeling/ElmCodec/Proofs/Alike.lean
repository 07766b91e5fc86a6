import ElmCodec.Proofs.Programs
import Mathlib.Data.List.Forall2

/-!
# Nodes that nothing tells apart

Two nodes are alike when they have one label, one decoder and one encoder, and
the walk finds the same to declare in both. Lists of alike items are alike, and
so are objects of alike members. Everything else that is made of a document is
made of these, so alike documents are converted to the same artifacts, or
refused for the same fault.
-/

namespace ElmCodec

open List (Forall₂)

-- ---------------------------------------------------------------------------
-- Related lists
-- ---------------------------------------------------------------------------

theorem map_eq_map_of_forall₂ {R : α → β → Prop} {f : α → γ} {g : β → γ}
    (h : ∀ a b, R a b → f a = g b) (hr : Forall₂ R first second) : first.map f = second.map g := by
  induction hr with
  | nil => rfl
  | cons hab _ ih => rw [List.map_cons, List.map_cons, h _ _ hab, ih]

theorem forall₂_imp_of_mem {R S : α → β → Prop} (h : ∀ a ∈ first, ∀ b, R a b → S a b)
    (hr : Forall₂ R first second) : Forall₂ S first second := by
  have hboth := (List.forall₂_and_left first second).mpr ⟨h, hr⟩
  exact hboth.imp fun a b hab => hab.1 b hab.2

theorem forall₂_map_map {r : β → γ → Prop} {f : α → β} {g : α → γ} {l : List α}
    (h : ∀ a ∈ l, r (f a) (g a)) : Forall₂ r (l.map f) (l.map g) := by
  rw [List.forall₂_map_left_iff, List.forall₂_map_right_iff, List.forall₂_same]
  exact h

section
variable {R : α → α → Prop} {le : α → α → Bool}

theorem forall₂_insertBy (hle : ∀ a b c d, R a b → R c d → le a c = le b d) (hr : R x y)
    (h : Forall₂ R first second) : Forall₂ R (insertBy le x first) (insertBy le y second) := by
  induction h with
  | nil => exact .cons hr .nil
  | cons hab h ih =>
    simp only [insertBy, hle _ _ _ _ hr hab]
    split
    · exact .cons hr (.cons hab h)
    · exact .cons hab ih

theorem forall₂_sortBy (hle : ∀ a b c d, R a b → R c d → le a c = le b d)
    (h : Forall₂ R first second) : Forall₂ R (sortBy le first) (sortBy le second) := by
  induction h with
  | nil => exact .nil
  | cons hab _ ih => exact forall₂_insertBy hle hab ih

end

theorem Members.forall₂_sort {R : α → α → Prop}
    (h : Forall₂ (fun m n => m.1 = n.1 ∧ R m.2 n.2) members others) :
    Forall₂ (fun m n => m.1 = n.1 ∧ R m.2 n.2) (sort members) (sort others) := by
  refine forall₂_sortBy (fun a b c d hab hcd => ?_) h
  rw [hab.1, hcd.1]

-- ---------------------------------------------------------------------------
-- Shapes
-- ---------------------------------------------------------------------------

structure Field.Alike (a b : Field) : Prop where
  key : a.key = b.key
  identifier : a.identifier = b.identifier
  label : a.label = b.label
  decoder : Decoder.ofNode a.node = .ofNode b.node
  encoder : Encoder.ofNode a.node = .ofNode b.node

structure Variant.Alike (a b : Variant) : Prop where
  constructor : a.constructor = b.constructor
  label : a.label = b.label
  decoder : Decoder.ofNode a.exemplar = .ofNode b.exemplar
  encoder : Encoder.ofNode a.exemplar = .ofNode b.exemplar

namespace Shape

/-- Shapes of which the same is declared. -/
inductive Alike : Shape → Shape → Prop
  | record {name : String} {path : Path} : Forall₂ Field.Alike first second →
      Alike (.record name path first) (.record name path second)
  | sum {name : String} {path : Path} : Forall₂ Variant.Alike first second →
      Alike (.sum name path first) (.sum name path second)

namespace Alike

theorem refl (shape : Shape) : shape.Alike shape := by
  cases shape with
  | record name path fields =>
    exact .record (List.forall₂_same.mpr fun _ _ => ⟨rfl, rfl, rfl, rfl, rfl⟩)
  | sum name path variants =>
    exact .sum (List.forall₂_same.mpr fun _ _ => ⟨rfl, rfl, rfl, rfl⟩)

variable {a b : Shape}

theorem typeDecl (h : a.Alike b) : TypeDecl.ofShape a = .ofShape b := by
  cases h with
  | @record first second _ _ h =>
    have hf : first.map (fun field => (field.identifier, field.label)) =
        second.map fun field => (field.identifier, field.label) :=
      map_eq_map_of_forall₂ (fun f g hfg => by rw [hfg.identifier, hfg.label]) h
    rw [TypeDecl.ofShape, TypeDecl.ofShape, hf]
  | @sum first second _ _ h =>
    have hv : first.map (fun variant => (variant.constructor, variant.label)) =
        second.map fun variant => (variant.constructor, variant.label) :=
      map_eq_map_of_forall₂ (fun v w hvw => by rw [hvw.constructor, hvw.label]) h
    rw [TypeDecl.ofShape, TypeDecl.ofShape, hv]

theorem decoderDecl (h : a.Alike b) : DecoderDecl.ofShape a = .ofShape b := by
  cases h with
  | @record first second _ _ h =>
    have hf : first.map (fun field => (field.key, Decoder.ofNode field.node)) =
        second.map fun field => (field.key, Decoder.ofNode field.node) :=
      map_eq_map_of_forall₂ (fun f g hfg => by rw [hfg.key, hfg.decoder]) h
    rw [DecoderDecl.ofShape, DecoderDecl.ofShape, hf]
  | @sum first second _ _ h =>
    have hv : first.map (fun variant => (variant.constructor, Decoder.ofNode variant.exemplar)) =
        second.map fun variant => (variant.constructor, Decoder.ofNode variant.exemplar) :=
      map_eq_map_of_forall₂ (fun v w hvw => by rw [hvw.constructor, hvw.decoder]) h
    rw [DecoderDecl.ofShape, DecoderDecl.ofShape, hv]

theorem encoderDecl (h : a.Alike b) : EncoderDecl.ofShape a = .ofShape b := by
  cases h with
  | @record first second _ _ h =>
    have hf : first.map (fun field =>
          FieldEncoder.mk field.key (Encoder.ofNode field.node) field.identifier) =
        second.map fun field => ⟨field.key, Encoder.ofNode field.node, field.identifier⟩ :=
      map_eq_map_of_forall₂ (fun f g hfg => by rw [hfg.key, hfg.encoder, hfg.identifier]) h
    rw [EncoderDecl.ofShape, EncoderDecl.ofShape, hf]
  | @sum first second _ _ h =>
    have hv : first.map (fun variant => (variant.constructor, Encoder.ofNode variant.exemplar)) =
        second.map fun variant => (variant.constructor, Encoder.ofNode variant.exemplar) :=
      map_eq_map_of_forall₂ (fun v w hvw => by rw [hvw.constructor, hvw.encoder]) h
    rw [EncoderDecl.ofShape, EncoderDecl.ofShape, hv]

theorem ofRepresentatives (path : Path) (h : Forall₂ (fun r s => r.1 = s.1 ∧
      Decoder.ofNode r.2 = .ofNode s.2 ∧ Encoder.ofNode r.2 = .ofNode s.2)
      (Node.representatives items) (Node.representatives others)) :
    (ofItems path items).Alike (.ofItems path others) := by
  have hvariants : ∀ {parts rest : List (Label × Node)} (index : Nat),
      Forall₂ (fun r s => r.1 = s.1 ∧ Decoder.ofNode r.2 = .ofNode s.2 ∧
        Encoder.ofNode r.2 = .ofNode s.2) parts rest →
        Forall₂ Variant.Alike (variants (typeName path) index parts)
          (variants (typeName path) index rest) := by
    intro parts rest index hr
    induction hr generalizing index with
    | nil => exact .nil
    | cons hrs _ ih => exact .cons ⟨rfl, hrs.1, hrs.2.1, hrs.2.2⟩ (ih (index + 1))
  exact .sum (hvariants 0 h)

theorem checkFields {fields others : List Field} (h : Forall₂ Field.Alike fields others)
    (record : String) (seen : List (String × String)) :
    NameCheck.checkFields record seen fields = NameCheck.checkFields record seen others := by
  induction h generalizing seen with
  | nil => rfl
  | cons hfg _ ih => simp only [NameCheck.checkFields, hfg.identifier, hfg.key, ih]

theorem checkVariants {variants others : List Variant} (h : Forall₂ Variant.Alike variants others)
    (path : Path) (held : NameCheck.Held) :
    variants.foldlM (fun held variant => NameCheck.declare held variant.constructor path) held =
      others.foldlM (fun held variant => NameCheck.declare held variant.constructor path) held := by
  induction h generalizing held with
  | nil => rfl
  | cons hvw _ ih => simp only [List.foldlM_cons, hvw.constructor, ih]

theorem visit (h : a.Alike b) : NameCheck.visit a = NameCheck.visit b := by
  have hc : ∀ held, NameCheck.checkShape held a = NameCheck.checkShape held b := by
    intro held
    cases h with
    | record h => simp only [NameCheck.checkShape, checkFields h]
    | sum h => simp only [NameCheck.checkShape, checkVariants h]
  simp only [NameCheck.visit, hc]

end Alike

end Shape

-- ---------------------------------------------------------------------------
-- Nodes
-- ---------------------------------------------------------------------------

/-- Nodes that no label, codec or declaration tells apart. -/
structure Node.Alike (a b : Node) : Prop where
  label : a.label = b.label
  record : a.isRecord = b.isRecord
  composite : a.isComposite = b.isComposite
  declaring : a.isDeclaring = b.isDeclaring
  decoder : Decoder.ofNode a = .ofNode b
  encoder : Encoder.ofNode a = .ofNode b
  visited : Forall₂ Shape.Alike a.visited b.visited

namespace Node.Alike

theorem refl (node : Node) : node.Alike node where
  label := rfl
  record := rfl
  composite := rfl
  declaring := rfl
  decoder := rfl
  encoder := rfl
  visited := List.forall₂_same.mpr fun shape _ => .refl shape

theorem scalar (path : Path) {a b : Scalar} (h : a.label = b.label) :
    (Node.scalar path a).Alike (.scalar path b) where
  label := h
  record := rfl
  composite := rfl
  declaring := rfl
  decoder := by cases a <;> cases b <;> first | rfl | cases h
  encoder := by cases a <;> cases b <;> first | rfl | cases h
  visited := .nil

theorem descend {a b : Node} (h : a.Alike b) : Forall₂ Shape.Alike a.descend b.descend := by
  unfold Node.descend
  rw [h.declaring]
  split
  · exact h.visited
  · exact .nil

theorem flatMap_descend (node : α → Node) {parts others : List α}
    (h : Forall₂ (fun a b => (node a).Alike (node b)) parts others) :
    Forall₂ Shape.Alike (parts.flatMap fun a => (node a).descend)
      (others.flatMap fun a => (node a).descend) := by
  induction h with
  | nil => exact .nil
  | cons hab _ ih =>
    rw [List.flatMap_cons, List.flatMap_cons]
    exact List.rel_append hab.descend ih

-- ---------------------------------------------------------------------------
-- Lists
-- ---------------------------------------------------------------------------

section
variable {items others : List Node} (h : Forall₂ Node.Alike items others)
include h

theorem labels : Node.labels items = Node.labels others := by
  rw [labels_eq_map, labels_eq_map]
  exact map_eq_map_of_forall₂ (fun _ _ hab => hab.label) h

theorem isMixed : Node.isMixed items = Node.isMixed others := by
  rw [Node.isMixed, labels h, Node.isMixed]

theorem firsts : Forall₂ (fun r s => r.1 = s.1 ∧ r.2.Alike s.2) (Node.firsts items)
    (Node.firsts others) := by
  induction h with
  | nil => exact .nil
  | cons hab _ ih =>
    refine .cons ⟨hab.label, hab⟩ (List.rel_filter (fun r s hrs => ?_) ih)
    simp [hrs.1, hab.label]

theorem representatives : Forall₂ (fun r s => r.1 = s.1 ∧ r.2.Alike s.2)
    (Node.representatives items) (Node.representatives others) := by
  refine forall₂_sortBy (fun a b c d hab hcd => ?_) (firsts h)
  rw [hab.1, hcd.1]

theorem ofItems (path : Path) : (Shape.ofItems path items).Alike (.ofItems path others) :=
  .ofRepresentatives path <| (representatives h).imp fun _ _ hrs =>
    ⟨hrs.1, hrs.2.decoder, hrs.2.encoder⟩

theorem any_isComposite : items.any Node.isComposite = others.any Node.isComposite := by
  induction h with
  | nil => rfl
  | cons hab _ ih => rw [List.any_cons, List.any_cons, hab.composite, ih]

theorem list (path : Path) : (Node.list path items).Alike (.list path others) where
  label := by rw [Node.label, Node.label, labels h]
  record := rfl
  composite := rfl
  declaring := by rw [isDeclaring, isDeclaring, isMixed h, any_isComposite h]
  decoder := by
    have hm := isMixed h
    cases h with
    | nil => rfl
    | cons hab _ => rw [Decoder.ofNode, Decoder.ofNode, hm, hab.decoder]
  encoder := by
    have hm := isMixed h
    cases h with
    | nil => rfl
    | cons hab _ => rw [Encoder.ofNode, Encoder.ofNode, hm, hab.encoder]
  visited := by
    cases hm : Node.isMixed items with
    | true =>
      rw [visited_mixed path hm, visited_mixed path ((isMixed h).symm.trans hm)]
      exact .cons (ofItems h path) (flatMap_descend id h)
    | false =>
      have hm' := (isMixed h).symm.trans hm
      cases h with
      | nil => exact .nil
      | cons hab _ =>
        rw [visited_uniform path hm, visited_uniform path hm']
        exact hab.descend

end

-- ---------------------------------------------------------------------------
-- Objects
-- ---------------------------------------------------------------------------

theorem object (path : Path) {members others : List (String × Node)}
    (h : Forall₂ (fun m n => m.1 = n.1 ∧ m.2.Alike n.2) (Members.sort members)
      (Members.sort others)) : (Node.object path members).Alike (.object path others) where
  label := rfl
  record := rfl
  composite := rfl
  declaring := rfl
  decoder := by rw [Decoder.ofNode, Decoder.ofNode]
  encoder := by rw [Encoder.ofNode, Encoder.ofNode]
  visited := by
    rw [visited_object, visited_object]
    refine .cons (.record ?_) ?_
    · refine List.rel_map (fun m n hmn => ?_) h
      obtain ⟨hk, hv⟩ := hmn
      exact ⟨hk, congrArg fieldName hk, hv.label, hv.decoder, hv.encoder⟩
    · exact flatMap_descend (·.2) (h.imp fun _ _ hmn => hmn.2)

-- ---------------------------------------------------------------------------
-- What is made of a document
-- ---------------------------------------------------------------------------

variable {a b : Node}

theorem extend (h : a.Alike b) {make : Shape → α} (hmake : ∀ s t, s.Alike t → make s = make t) :
    Program.extend make [] a = Program.extend make [] b := by
  rw [Program.extend_eq_map, Program.extend_eq_map]
  exact map_eq_map_of_forall₂ hmake h.visited

theorem program (h : a.Alike b) : Program.ofNode a = .ofNode b := by
  simp only [Program.ofNode, Program.assemble, Node.typeDecls, Node.decoderDecls,
    Node.encoderDecls, Node.documentCodec, h.extend fun _ _ hst => hst.typeDecl,
    h.extend fun _ _ hst => hst.decoderDecl, h.extend fun _ _ hst => hst.encoderDecl, h.label,
    h.decoder, h.encoder, h.record]

theorem nameCheck (h : a.Alike b) : NameCheck.run a = NameCheck.run b := by
  have hvisits : ∀ {shapes others : List Shape}, Forall₂ Shape.Alike shapes others →
      shapes.forM NameCheck.visit = others.forM NameCheck.visit := by
    intro shapes others hs
    induction hs with
    | nil => rfl
    | cons hst _ ih =>
      simp only [List.forM_eq_forM, List.forM_cons] at ih ⊢
      rw [hst.visit, ih]
  rw [NameCheck.run, NameCheck.run, walk_eq_forM, walk_eq_forM, hvisits h.visited,
    NameCheck.reserved, NameCheck.reserved, h.record]

theorem ofJson {a b : Json}
    (h : (Node.annotate (.ofRoot options.root) a).Alike (.annotate (.ofRoot options.root) b)) :
    Artifacts.ofJson options a = Artifacts.ofJson options b := by
  simp only [Artifacts.ofJson, Program.ofNodeParallel_eq, h.nameCheck, h.program]

end Node.Alike

-- ---------------------------------------------------------------------------
-- Values
-- ---------------------------------------------------------------------------

/-- Values that are alike wherever they stand. -/
def Json.Alike (a b : Json) : Prop := ∀ path, (Node.annotate path a).Alike (.annotate path b)

namespace Json.Alike

theorem refl (json : Json) : json.Alike json := fun _ => .refl _

theorem number (m n : Number) : (Json.number m).Alike (.number n) := fun path => .scalar path rfl

theorem list {items others : List Json} (h : Forall₂ Json.Alike items others) :
    (Json.list items).Alike (.list others) := by
  intro path
  refine .list ?_ path
  have hitems : ∀ index, Forall₂ Node.Alike (Node.annotateItems path index items)
      (Node.annotateItems path index others) := by
    induction h with
    | nil => exact fun _ => .nil
    | cons hab _ ih => exact fun index => .cons (hab (path.position index)) (ih (index + 1))
  exact hitems 0

theorem object {members others : List (String × Json)}
    (h : Forall₂ (fun m n => m.1 = n.1 ∧ m.2.Alike n.2) (Members.sort members)
      (Members.sort others)) : (Json.object members).Alike (.object others) := by
  intro path
  rw [Node.annotate, Node.annotate, Node.annotateMembers_eq_map, Node.annotateMembers_eq_map]
  refine .object path ?_
  rw [Members.sort_map fun m : String × Json => Node.annotate (path.field m.1) m.2,
    Members.sort_map fun m : String × Json => Node.annotate (path.field m.1) m.2]
  refine List.rel_map (fun m n hmn => ?_) h
  obtain ⟨hk, hv⟩ := hmn
  exact ⟨hk, hk ▸ hv (path.field m.1)⟩

theorem members {members others : List (String × Json)}
    (h : Forall₂ (fun m n => m.1 = n.1 ∧ m.2.Alike n.2) members others) :
    (Json.object members).Alike (.object others) :=
  object (Members.forall₂_sort h)

/-- Alike documents have the same artifacts, or are refused for the same fault. -/
theorem ofJson {a b : Json} (h : a.Alike b) (options : Options) :
    Artifacts.ofJson options a = Artifacts.ofJson options b :=
  (h (.ofRoot options.root)).ofJson

end Json.Alike

end ElmCodec
