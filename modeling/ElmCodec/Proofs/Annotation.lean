import ElmCodec.Proofs.Labels
import ElmCodec.Proofs.Positions
import ElmCodec.Proofs.Tree

/-!
# Labels of annotated lists

An item is annotated at its position and a member at its key. A generated name
in the label of an item is that of the item or of a first item below it, so no
two items of an annotated list have a label with a name in common.
-/

namespace ElmCodec

namespace Node

theorem annotateItems_eq_mapIdx (path : Path) (index : Nat) (items : List Json) :
    annotateItems path index items =
      items.mapIdx fun i item => annotate (path.position (index + i)) item := by
  induction items generalizing index with
  | nil => rfl
  | cons item rest ih =>
    simp [annotateItems, ih, List.mapIdx_cons, Nat.add_assoc, Nat.add_comm 1]

theorem annotateItems_append (path : Path) (index : Nat) (items more : List Json) :
    annotateItems path index (items ++ more) =
      annotateItems path index items ++ annotateItems path (index + items.length) more := by
  simp [annotateItems_eq_mapIdx, List.mapIdx_append, Nat.add_assoc, Nat.add_comm items.length]

theorem annotateMembers_eq_map (path : Path) (members : List (String × Json)) :
    annotateMembers path members = members.map fun m => (m.1, annotate (path.field m.1) m.2) := by
  induction members with
  | nil => rfl
  | cons member rest ih => simp [annotateMembers, ih]

theorem mem_annotateItems {path : Path} {item : Node} (h : item ∈ annotateItems path index items) :
    ∃ i, ∃ json ∈ items, item = annotate (path.position i) json := by
  rw [annotateItems_eq_mapIdx, List.mem_mapIdx] at h
  obtain ⟨i, hi, rfl⟩ := h
  exact ⟨index + i, items[i], List.getElem_mem hi, rfl⟩

theorem annotate_mem_annotateItems (path : Path) (index : Nat) (h : json ∈ items) :
    ∃ i, annotate (path.position i) json ∈ annotateItems path index items := by
  rw [annotateItems_eq_mapIdx]
  obtain ⟨i, hi, rfl⟩ := List.getElem_of_mem h
  exact ⟨index + i, List.mem_mapIdx.mpr ⟨i, hi, rfl⟩⟩

theorem getElem?_annotateItems (path : Path) (items : List Json) (i : Nat) :
    (annotateItems path 0 items)[i]? = items[i]?.map (annotate (path.position i)) := by
  simp [annotateItems_eq_mapIdx]

theorem mem_annotateMembers {path : Path} {member : String × Node}
    (h : member ∈ annotateMembers path members) :
    ∃ m ∈ members, member = (m.1, annotate (path.field m.1) m.2) := by
  rw [annotateMembers_eq_map, List.mem_map] at h
  obtain ⟨m, hm, rfl⟩ := h
  exact ⟨m, hm, rfl⟩

theorem exists_list_of_annotate {path : Path} {json : Json}
    (h : annotate path json = list listPath items) :
    ∃ values, json = .list values ∧ listPath = path ∧ items = annotateItems path 0 values := by
  cases json with
  | list values =>
    obtain ⟨rfl, rfl⟩ := list.inj h
    exact ⟨values, rfl, rfl, rfl⟩
  | _ => cases h

theorem firsts_names {path : Path} (json : Json) (h : name ∈ (annotate path json).label.names) :
    ∃ depth, name = typeName (path.firsts depth) := by
  induction json using Json.induct generalizing path with
  | list items ih =>
    cases items with
    | nil => simp [annotate, annotateItems] at h
    | cons first rest =>
      simp only [annotate, annotateItems] at h
      cases hm : isMixed (annotateItems path 0 (first :: rest)) with
      | true =>
        rw [← annotateItems, label_list_mixed path hm] at h
        exact ⟨0, by simpa [Path.firsts] using h⟩
      | false =>
        rw [label_list_uniform path hm] at h
        obtain ⟨depth, hd⟩ := ih first List.mem_cons_self h
        exact ⟨depth + 1, hd⟩
  | object members ih => exact ⟨0, by simpa [annotate, Path.firsts] using h⟩
  | _ => simp [annotate] at h

/-- No two items have a label with a generated name in common. -/
theorem namesApart_annotateItems (path : Path) (index : Nat) (items : List Json) :
    NamesApart (annotateItems path index items) := by
  rw [annotateItems_eq_mapIdx, NamesApart, List.pairwise_iff_getElem]
  intro i j hi hj hij hl
  simp only [List.getElem_mapIdx] at hl ⊢
  by_contra hne
  obtain ⟨name, hn⟩ := List.exists_mem_of_ne_nil _ hne
  obtain ⟨m, hm⟩ := firsts_names _ hn
  obtain ⟨n, hn⟩ := firsts_names _ (hl ▸ hn)
  have := position_eq_of_typeName_eq (hm.symm.trans hn)
  omega

end Node

end ElmCodec
