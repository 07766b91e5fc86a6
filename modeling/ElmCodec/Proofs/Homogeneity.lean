import ElmCodec.Proofs.LabelOrder
import ElmCodec.Proofs.Titles
import ElmCodec.Proofs.Typing

/-!
# Labels of a list and their representatives

Two computations find the labels of a list: one sorts the labels of all items and
takes out repetitions, the other takes the first item with each label and sorts
those. In an annotated document they agree, since the name of an item is never
spelled like a scalar's label: it ends in the letters of a position. So the
variants of a sum type are the labels of its items.
-/

namespace ElmCodec

-- ---------------------------------------------------------------------------
-- Names of items
-- ---------------------------------------------------------------------------

theorem suffix_withItem (letters : List Char) : letters <:+ withItem letters := by
  unfold withItem
  split
  · split
    · exact List.suffix_refl _
    · exact List.suffix_append _ _
  · exact List.nil_suffix

theorem exists_position_suffix (index depth : Nat) :
    ∃ position, positionLetters position <:+ firstLetters index depth := by
  cases depth with
  | zero => exact ⟨index, by simp [firstLetters]⟩
  | succ depth =>
    refine ⟨0, positionLetters index ++ (List.replicate depth (positionLetters 0)).flatten, ?_⟩
    simp [firstLetters, List.replicate_succ']

theorem not_suffix_scalarName (position : Nat) (h : name ∈ scalarNames) :
    ¬ positionLetters position <:+ name.toList := by
  intro hs
  by_cases hp : position < positionNouns.length
  · have nouns : ∀ noun ∈ positionNouns, ∀ name ∈ scalarNames, ¬ noun.toList <:+ name.toList := by
      decide
    rw [positionLetters_noun hp] at hs
    exact nouns _ (noun_mem hp) name h hs
  · have letters : ∀ name ∈ scalarNames, name.toList.all fun c => !c.isDigit := by decide
    obtain ⟨c, hc⟩ := List.exists_mem_of_ne_nil _ (positionLetters_ne_nil position)
    have hn := List.all_eq_true.mp (letters name h) c (hs.mem hc)
    simp [isDigit_of_mem_positionLetters hp hc] at hn

theorem typeName_firsts_not_mem (path : Path) (index depth : Nat) :
    typeName ((path.position index).firsts depth) ∉ scalarNames := by
  intro h
  obtain ⟨position, hp⟩ := exists_position_suffix index depth
  refine not_suffix_scalarName position h ?_
  rw [typeName_firsts, String.toList_ofList]
  exact (hp.trans (List.suffix_append _ _)).trans (suffix_withItem _)

theorem Path.isRoot_firsts (path : Path) (index depth : Nat) :
    ((path.position index).firsts depth).isRoot = false := by
  simp [isRoot, segments_firsts, position, child]

namespace Node

theorem wellNamed_item {path : Path} (h : item ∈ annotateItems path index items) :
    item.label.WellNamed := by
  obtain ⟨i, json, -, rfl⟩ := mem_annotateItems h
  intro name hn
  obtain ⟨depth, rfl⟩ := firsts_names json hn
  exact ⟨isTypeName_typeName (Path.isRoot_firsts path i depth),
    typeName_firsts_not_mem path i depth⟩

-- ---------------------------------------------------------------------------
-- Two ways to the labels of a list
-- ---------------------------------------------------------------------------

theorem sort_firsts (items : List Node) :
    Label.sort ((firsts items).map (·.1)) = (representatives items).map (·.1) :=
  sortBy_map _ _ (firsts items)

theorem mem_firsts_labels {label : Label} :
    label ∈ (firsts items).map (·.1) ↔ ∃ item ∈ items, item.label = label := by
  constructor
  · intro h
    obtain ⟨r, hr, rfl⟩ := List.mem_map.mp h
    exact ⟨r.2, (mem_firsts hr).1, (mem_firsts hr).2.symm⟩
  · rintro ⟨item, hi, rfl⟩
    obtain ⟨first, hf⟩ := exists_first hi
    exact List.mem_map_of_mem hf

/-- What the labels of a list and their representatives say of its items. -/
structure Analysed (items : List Node) : Prop where
  agree : Label.distinct (labels items) = (representatives items).map (·.1)
  mem : ∀ label, label ∈ Label.distinct (labels items) ↔ ∃ item ∈ items, item.label = label
  nodup : (Label.distinct (labels items)).Nodup
  ascending : Label.Ascending (Label.distinct (labels items))
  emptyLast : .list .unit ∈ Label.distinct (labels items) →
    (Label.distinct (labels items)).getLast? = some (.list .unit)
  mixed : isMixed items = true ↔ ∃ a ∈ items, ∃ b ∈ items, a.label ≠ b.label
  first : ∀ r ∈ representatives items, ∃ before after, items = before ++ r.2 :: after ∧
    r.1 = r.2.label ∧ ∀ item ∈ before, item.label ≠ r.1

theorem Analysed.of_wellNamed (h : ∀ item ∈ items, item.label.WellNamed) : Analysed items := by
  have hlabels : ∀ label ∈ labels items, label.WellNamed := by
    intro label hl
    obtain ⟨item, hi, rfl⟩ := mem_labels.mp hl
    exact h item hi
  have hfirsts : ∀ label ∈ (firsts items).map (·.1), label.WellNamed := by
    intro label hl
    obtain ⟨item, hi, rfl⟩ := mem_firsts_labels.mp hl
    exact h item hi
  have hdistinct := Label.ascending_distinct hlabels
  have hsorted := Label.ascending_sort hfirsts (nodup_firsts items)
  refine ⟨?_, fun label => Label.mem_distinct.trans mem_labels, hdistinct.nodup, hdistinct,
    hdistinct.getLast?_list_unit, isMixed_iff, fun r hr => split_of_mem_firsts (mem_sortBy.mp hr)⟩
  rw [← sort_firsts]
  refine hdistinct.eq_of_mem_iff hsorted fun label => ?_
  rw [Label.mem_distinct, mem_labels, Label.mem_sort, mem_firsts_labels]

theorem Analysed.one_lt (h : Analysed items) (hm : isMixed items = true) :
    1 < (representatives items).length := by
  have hlen := congrArg List.length h.agree
  rw [List.length_map] at hlen
  rw [← hlen]
  simpa [isMixed] using hm

end Node

-- ---------------------------------------------------------------------------
-- Sum types
-- ---------------------------------------------------------------------------

/-- Declarations of a sum type with a numbered constructor for each label of these items. -/
structure Numbered (items : List Node) (name : String) (type : TypeDecl) (decoder : DecoderDecl)
    (encoder : EncoderDecl) : Prop where
  two : 2 ≤ (Node.representatives items).length
  type : type = .union name
    ((Node.representatives items).mapIdx fun i r => (name ++ toString i, r.1))
  decoder : decoder = ⟨name, .named name, .oneOf
    ((Node.representatives items).mapIdx fun i r => (name ++ toString i, .ofNode r.2))⟩
  encoder : encoder = ⟨name, .named name, .cases
    ((Node.representatives items).mapIdx fun i r => (name ++ toString i, .ofNode r.2))⟩
  typed : ∀ r ∈ Node.representatives items,
    (Decoder.ofNode r.2).HasType r.1 ∧ (Encoder.ofNode r.2).HasType r.1

theorem Numbered.ofItems (path : Path) (h : Node.Analysed items) (hm : Node.isMixed items = true) :
    Numbered items (typeName path) (.ofShape (.ofItems path items))
      (.ofShape (.ofItems path items)) (.ofShape (.ofItems path items)) := by
  refine ⟨h.one_lt hm, ?_, ?_, ?_, fun r hr => ?_⟩
  · simp [TypeDecl.ofShape, Shape.ofItems, Shape.map_variants]
  · simp [DecoderDecl.ofShape, Shape.ofItems, Shape.map_variants]
  · simp [EncoderDecl.ofShape, Shape.ofItems, Shape.map_variants]
  · rw [(Node.mem_representatives hr).2]
    exact ⟨Decoder.hasType_ofNode r.2, Encoder.hasType_ofNode r.2⟩

theorem Node.list_of_union {root : Node} (hs : shape ∈ root.shapes)
    (h : TypeDecl.ofShape shape = .union name variants) :
    ∃ path items, .list path items ∈ root.preorder ∧ Node.isMixed items = true ∧
      name = typeName path ∧ shape = .ofItems path items := by
  obtain ⟨node, hn, hs⟩ := List.mem_filterMap.mp hs
  cases node with
  | scalar path value => simp [Node.shape?] at hs
  | list path items =>
    obtain ⟨hm, rfl⟩ := Node.ofItems_of_shape? hs
    exact ⟨path, items, hn, hm, (TypeDecl.union.inj h).1.symm, rfl⟩
  | object path members =>
    obtain rfl := Option.some.inj hs
    cases h

/-- The labels of every list are those of its representatives, and every sum type has
one numbered constructor for each label of a list, with which all three declarations agree. -/
theorem Program.labels_agree (path : Path) (json : Json) :
    (∀ listPath items, .list listPath items ∈ (Node.annotate path json).preorder →
      Node.Analysed items) ∧
    ∀ (i : Nat) (name : String) (variants : List (String × Label)),
      (ofNode (.annotate path json)).types[i]? = some (.union name variants) →
        ∃ listPath items decoder encoder,
          .list listPath items ∈ (Node.annotate path json).preorder ∧ name = typeName listPath ∧
          (ofNode (.annotate path json)).decoders[i]? = some decoder ∧
          (ofNode (.annotate path json)).encoders[i]? = some encoder ∧
          Numbered items name (.union name variants) decoder encoder := by
  have hlists : ∀ listPath items, .list listPath items ∈ (Node.annotate path json).preorder →
      Node.Analysed items := by
    intro listPath items h
    obtain ⟨values, rfl⟩ := Node.exists_values h
    exact .of_wellNamed fun item => Node.wellNamed_item
  refine ⟨hlists, fun i name variants ht => ?_⟩
  rw [types_ofNode, List.getElem?_map, Option.map_eq_some_iff] at ht
  obtain ⟨shape, hs, hu⟩ := ht
  obtain ⟨listPath, items, hl, hm, rfl, rfl⟩ := Node.list_of_union (List.mem_of_getElem? hs) hu
  have hsum := Numbered.ofItems listPath (hlists _ _ hl) hm
  rw [hu] at hsum
  refine ⟨listPath, items, _, _, hl, rfl, ?_, ?_, hsum⟩
  · rw [decoders_ofNode, List.getElem?_map, hs]
    rfl
  · rw [encoders_ofNode, List.getElem?_map, hs]
    rfl

end ElmCodec
