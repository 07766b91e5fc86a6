import ElmCodec.Proofs.Reading

/-!
# A document reads itself

An item is read by the first item with its label. When that is another item,
the label has no generated names, and then it says all that there is to know of
the structure below it.
-/

namespace ElmCodec.Node

theorem reads_of_label_eq {path other : Path} (json value : Json)
    (hl : (annotate path json).label = (annotate other value).label)
    (hn : (annotate path json).label.names = []) :
    ((annotate path json).reads value).isSome := by
  induction json using Json.induct generalizing path other value with
  | list items ih =>
    cases value with
    | list values =>
      rw [annotate] at hl hn ⊢
      cases items with
      | nil => exact Option.isSome_iff_exists.mpr ⟨_, reads_list_nil path values⟩
      | cons first rest =>
        cases hm : isMixed (annotateItems path 0 (first :: rest)) with
        | true => simp [label_list_mixed path hm] at hn
        | false =>
          rw [annotateItems] at hl hn hm ⊢
          rw [label_list_uniform path hm] at hl hn
          rw [reads_list_uniform path hm, Option.isSome_map]
          refine mapM_isSome fun item hi => ?_
          obtain ⟨i, hi⟩ := annotate_mem_annotateItems other 0 hi
          exact ih first List.mem_cons_self _ (label_item hl.symm hn hi).symm hn
    | _ => simp [annotate, label, Scalar.label] at hl
  | object members ih => simp [annotate] at hn
  | _ => cases value <;> simp_all [annotate, label, Scalar.label, reads, Scalar.fits]

theorem reads_item {path : Path} {items : List Json}
    (hf : first ∈ annotateItems path 0 items)
    (hi : annotate other json ∈ annotateItems path 0 items)
    (hl : (annotate other json).label = first.label)
    (hself : ((annotate other json).reads json).isSome) : (first.reads json).isSome := by
  by_cases he : first = annotate other json
  · rw [he]
    exact hself
  · have hn := (namesApart_annotateItems path 0 items).names_eq_nil hf hi he hl.symm
    obtain ⟨i, value, -, rfl⟩ := mem_annotateItems hf
    exact reads_of_label_eq value json hl.symm hn

theorem reads_annotate (path : Path) (json : Json) (h : json.Distinct) :
    ((annotate path json).reads json).isSome := by
  induction json using Json.induct generalizing path with
  | list items ih =>
    rw [annotate]
    cases items with
    | nil => exact Option.isSome_iff_exists.mpr ⟨_, reads_list_nil path []⟩
    | cons first rest =>
      rw [annotateItems, reads_list_cons, Option.isSome_map, ← annotateItems]
      refine mapM_isSome fun item hi => ?_
      obtain ⟨i, hm⟩ := annotate_mem_annotateItems path 0 hi
      obtain ⟨reader, hr⟩ := exists_representative hm
      obtain ⟨hrm, hrl⟩ := mem_representatives hr
      exact List.findSome?_isSome_iff.mpr
        ⟨_, hr, reads_item hrm hm hrl (ih item hi _ (h.of_list item hi))⟩
  | object members ih =>
    rw [annotate, reads_object, Option.isSome_map]
    refine mapM_isSome fun m hm => ?_
    obtain ⟨member, hj, rfl⟩ := mem_annotateMembers (Members.mem_sort.mp hm)
    rw [Json.member?, Members.lookup_of_mem h.nodup_keys hj]
    exact ih member hj _ (h.of_object member hj)
  | _ => rfl

end ElmCodec.Node
