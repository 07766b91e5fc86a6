import ElmCodec.Proofs.Alike
import ElmCodec.Proofs.Reading

/-!
# Repeated evidence

A list is known by the first item with each label and by what there is to
declare below its items. An item whose label was seen before declares nothing,
since a label with a generated name belongs to one item. So the last item of a
list can go if an earlier one has its label, wherever in a document the list
is, and a uniform list says no more than its first item.
-/

namespace ElmCodec

open List (Forall₂)

-- ---------------------------------------------------------------------------
-- Lists with the same representatives
-- ---------------------------------------------------------------------------

namespace Node

theorem isComposite_iff {node : Node} :
    node.isComposite = true ↔ node.label ∉ [.bool, .float, .string, .unit] := by
  cases node with
  | scalar path value => cases value <;> simp [isComposite, Scalar.label]
  | _ => simp [isComposite, label]

section
variable {items others : List Node} (h : firsts items = firsts others)
include h

theorem exists_label_of_firsts_eq (hi : item ∈ items) :
    ∃ other ∈ others, other.label = item.label := by
  obtain ⟨first, hf⟩ := exists_first hi
  obtain ⟨hm, hl⟩ := mem_firsts (h ▸ hf)
  exact ⟨first, hm, hl.symm⟩

theorem isMixed_of_firsts_eq (hm : isMixed items = true) : isMixed others = true := by
  obtain ⟨a, ha, b, hb, hne⟩ := isMixed_iff.mp hm
  obtain ⟨c, hc, hca⟩ := exists_label_of_firsts_eq h ha
  obtain ⟨d, hd, hdb⟩ := exists_label_of_firsts_eq h hb
  exact isMixed_iff.mpr ⟨c, hc, d, hd, by rwa [hca, hdb]⟩

theorem any_isComposite_of_firsts_eq (ha : items.any isComposite = true) :
    others.any isComposite = true := by
  obtain ⟨item, hi, hc⟩ := List.any_eq_true.mp ha
  obtain ⟨other, ho, hl⟩ := exists_label_of_firsts_eq h hi
  exact List.any_eq_true.mpr ⟨other, ho, isComposite_iff.mpr (hl ▸ isComposite_iff.mp hc)⟩

theorem isMixed_eq_of_firsts_eq : isMixed items = isMixed others :=
  Bool.eq_iff_iff.mpr ⟨isMixed_of_firsts_eq h, isMixed_of_firsts_eq h.symm⟩

end

theorem alike_cons {first : Node} {rest others : List Node} (path : Path)
    (h : firsts (first :: rest) = firsts (first :: others))
    (hd : (first :: rest).flatMap descend = (first :: others).flatMap descend) :
    (list path (first :: rest)).Alike (list path (first :: others)) where
  label := by
    have hm := isMixed_eq_of_firsts_eq h
    cases hmixed : isMixed (first :: rest) with
    | true => rw [label_list_mixed path hmixed, label_list_mixed path (hm ▸ hmixed)]
    | false => rw [label_list_uniform path hmixed, label_list_uniform path (hm ▸ hmixed)]
  record := rfl
  composite := rfl
  declaring := by
    have hany : (first :: rest).any isComposite = (first :: others).any isComposite :=
      Bool.eq_iff_iff.mpr ⟨any_isComposite_of_firsts_eq h, any_isComposite_of_firsts_eq h.symm⟩
    rw [isDeclaring, isDeclaring, hany, isMixed_eq_of_firsts_eq h]
  decoder := by rw [Decoder.ofNode, Decoder.ofNode, isMixed_eq_of_firsts_eq h]
  encoder := by rw [Encoder.ofNode, Encoder.ofNode, isMixed_eq_of_firsts_eq h]
  visited := by
    have hm := isMixed_eq_of_firsts_eq h
    have hv : (list path (first :: rest)).visited = (list path (first :: others)).visited := by
      cases hmixed : isMixed (first :: rest) with
      | true =>
        rw [visited_mixed path hmixed, visited_mixed path (hm ▸ hmixed), hd, Shape.ofItems,
          Shape.ofItems, representatives, representatives, h]
      | false => rw [visited_uniform path hmixed, visited_uniform path (hm ▸ hmixed)]
    exact hv ▸ List.forall₂_same.mpr fun shape _ => .refl shape

theorem alike_of_firsts_eq {items others : List Node} (path : Path)
    (h : firsts items = firsts others) (hd : items.flatMap descend = others.flatMap descend) :
    (list path items).Alike (list path others) := by
  cases items with
  | nil =>
    cases others with
    | nil => exact .refl _
    | cons first rest => simp [firsts] at h
  | cons first rest =>
    cases others with
    | nil => simp [firsts] at h
    | cons other others =>
      obtain rfl : first = other := (Prod.mk.inj (List.cons.inj h).1).2
      exact alike_cons path h hd

-- ---------------------------------------------------------------------------
-- Repeated labels
-- ---------------------------------------------------------------------------

theorem firsts_append (items more : List Node) :
    firsts (items ++ more) =
      firsts items ++ (firsts more).filter fun r => ∀ item ∈ items, r.1 ≠ item.label := by
  induction items with
  | nil => simp [firsts]
  | cons item rest ih => simp [firsts, ih, List.filter_filter]

theorem firsts_concat {last : Node} (hi : item ∈ items) (h : item.label = last.label) :
    firsts (items ++ [last]) = firsts items := by
  rw [firsts_append]
  have hl : ∃ item ∈ items, last.label = item.label := ⟨item, hi, h.symm⟩
  simpa [firsts] using hl

theorem descend_eq_nil {node : Node} (h : node.shapes = []) : node.descend = [] := by
  refine List.eq_nil_iff_forall_not_mem.mpr fun shape hs => ?_
  unfold descend at hs
  split at hs
  · simpa [h] using mem_shapes_of_visited node hs
  · simp at hs

variable {path : Path} {items : List Json} {first last : Json} {rest : List Json}

theorem annotateItems_concat : annotateItems path 0 (items ++ [last]) =
    annotateItems path 0 items ++ [annotate (path.position items.length) last] := by
  simp [annotateItems_append, annotateItems]

/-- A label that two items have leaves nothing to declare below them. -/
theorem shapes_eq_nil_of_repeated (he : earlier ∈ annotateItems path 0 items)
    (hl : earlier.label = (annotate (path.position items.length) last).label) :
    (annotate (path.position items.length) last).shapes = [] := by
  have apart := namesApart_annotateItems path 0 (items ++ [last])
  rw [annotateItems_concat] at apart
  have hn := (List.pairwise_append.mp apart).2.2 earlier he _ (List.mem_singleton_self _) hl
  exact shapes_eq_nil _ (hl ▸ hn)

theorem alike_repeated (he : earlier ∈ annotateItems path 0 items)
    (hl : earlier.label = (annotate (path.position items.length) last).label) :
    (annotate path (.list (items ++ [last]))).Alike (annotate path (.list items)) := by
  rw [annotate, annotate, annotateItems_concat]
  refine alike_of_firsts_eq path (firsts_concat he hl) ?_
  simp [descend_eq_nil (shapes_eq_nil_of_repeated he hl)]

theorem alike_uniform (h : isMixed (annotateItems path 0 (first :: rest)) = false) :
    (annotate path (.list (first :: rest))).Alike (annotate path (.list [first])) := by
  have hrest : (annotateItems path 1 rest).flatMap descend = [] := by
    refine List.flatMap_eq_nil_iff.mpr fun item hi => descend_eq_nil ?_
    exact List.flatMap_eq_nil_iff.mp (shapes_rest_eq_nil h) item hi
  rw [annotate, annotate]
  refine alike_of_firsts_eq path ?_ ?_
  · exact (firsts_uniform h).trans (firsts_uniform rfl).symm
  · simp [annotateItems, hrest]

theorem shapes_annotate_uniform (h : isMixed (annotateItems path 0 (first :: rest)) = false) :
    (annotate path (.list (first :: rest))).shape? = none ∧
      (annotate path (.list (first :: rest))).shapes =
        (annotate (path.position 0) first).shapes := by
  refine ⟨by simp [annotate, shape?, h], ?_⟩
  rw [annotate, shapes_uniform path h, annotateItems, List.flatMap_cons, shapes_rest_eq_nil h,
    List.append_nil]

end Node

-- ---------------------------------------------------------------------------
-- Somewhere in a document
-- ---------------------------------------------------------------------------

namespace Json

/-- One part of a value, found at the path where the relation puts it, is changed. -/
inductive Changed (R : Path → Json → Json → Prop) : Path → Json → Json → Prop
  | here {path : Path} : R path a b → Changed R path a b
  | item {path : Path} {before after : List Json} : Changed R (path.position before.length) a b →
      Changed R path (.list (before ++ a :: after)) (.list (before ++ b :: after))
  | member {path : Path} {before after : List (String × Json)} : Changed R (path.field key) a b →
      Changed R path (.object (before ++ (key, a) :: after)) (.object (before ++ (key, b) :: after))

theorem Changed.alike {R : Path → Json → Json → Prop}
    (hR : ∀ path a b, R path a b → (Node.annotate path a).Alike (.annotate path b))
    (h : Changed R path a b) : (Node.annotate path a).Alike (.annotate path b) := by
  have same : ∀ items, Forall₂ Node.Alike items items := fun items =>
    List.forall₂_same.mpr fun item _ => .refl item
  have sameMembers : ∀ members : List (String × Node),
      Forall₂ (fun m n => m.1 = n.1 ∧ m.2.Alike n.2) members members := fun members =>
    List.forall₂_same.mpr fun m _ => ⟨rfl, .refl m.2⟩
  induction h with
  | here h => exact hR _ _ _ h
  | @item a b path before after _ ih =>
    rw [Node.annotate, Node.annotate]
    refine .list ?_ path
    rw [Node.annotateItems_append, Node.annotateItems_append, Node.annotateItems,
      Node.annotateItems, Nat.zero_add]
    exact List.rel_append (same _) (.cons ih (same _))
  | @member a b key path before after _ ih =>
    rw [Node.annotate, Node.annotate, Node.annotateMembers_eq_map, Node.annotateMembers_eq_map]
    refine .object path (Members.forall₂_sort ?_)
    simp only [List.map_append, List.map_cons]
    exact List.rel_append (sameMembers _) (.cons ⟨rfl, ih⟩ (sameMembers _))

/-- A list whose last item has the label of an earlier one, and the list without it. -/
inductive Repeated : Path → Json → Json → Prop
  | intro {path : Path} {items : List Json} {last : Json} {earlier : Node} :
      earlier ∈ Node.annotateItems path 0 items →
      earlier.label = (Node.annotate (path.position items.length) last).label →
      Repeated path (.list (items ++ [last])) (.list items)

/-- A list whose items have one label, and the list of its first item. -/
inductive Uniform : Path → Json → Json → Prop
  | intro {path : Path} {first : Json} {rest : List Json} :
      Node.isMixed (Node.annotateItems path 0 (first :: rest)) = false →
      Uniform path (.list (first :: rest)) (.list [first])

theorem Repeated.alike (h : Repeated path long short) :
    (Node.annotate path long).Alike (.annotate path short) := by
  cases h with
  | intro he hl => exact Node.alike_repeated he hl

theorem Uniform.alike (h : Uniform path long short) :
    (Node.annotate path long).Alike (.annotate path short) := by
  cases h with
  | intro h => exact Node.alike_uniform h

end Json

namespace Artifacts

/-- Wherever it stands in a document, a list is converted like the list without a last item
whose label an earlier item has, and a uniform list like that of its first item: it declares
what this item declares. -/
theorem ofJson_repeated (options : Options) :
    (∀ long short, Json.Changed Json.Repeated (.ofRoot options.root) long short →
      ofJson options long = ofJson options short) ∧
    (∀ long short, Json.Changed Json.Uniform (.ofRoot options.root) long short →
      ofJson options long = ofJson options short) ∧
    ∀ path first rest, Node.isMixed (Node.annotateItems path 0 (first :: rest)) = false →
      (Node.annotate path (.list (first :: rest))).shape? = none ∧
        (Node.annotate path (.list (first :: rest))).shapes =
          (Node.annotate (path.position 0) first).shapes := by
  refine ⟨fun long short h => ?_, fun long short h => ?_, fun path first rest h => ?_⟩
  · exact (h.alike fun _ _ _ h => h.alike).ofJson
  · exact (h.alike fun _ _ _ h => h.alike).ofJson
  · exact Node.shapes_annotate_uniform h

/-- `[[1], "x"]` -/
def entries : Json := .list [.list [.number (.integer 1)], .string "x"]

/-- `[[1], "x", [2, 3]]` -/
def moreEntries : Json :=
  .list [.list [.number (.integer 1)], .string "x",
    .list [.number (.integer 2), .number (.integer 3)]]

/-- A list below a key loses a list of numbers, and the document a list of nulls. -/
theorem ofJson_repeated_entries :
    ofJson {} (.object [("a", moreEntries)]) = ofJson {} (.object [("a", entries)]) ∧
      ofJson {} (.list [.list [], .list [.null]]) = ofJson {} (.list [.list []]) := by
  obtain ⟨hrepeated, huniform, -⟩ := ofJson_repeated {}
  refine ⟨hrepeated _ _ ?_, huniform _ _ (.here (.intro rfl))⟩
  show Json.Changed _ _ (.object ([] ++ ("a", moreEntries) :: []))
    (.object ([] ++ ("a", entries) :: []))
  refine .member (.here ?_)
  show Json.Repeated _ (.list ([_, _] ++ [_])) (.list [_, _])
  exact .intro List.mem_cons_self rfl

end Artifacts

end ElmCodec
