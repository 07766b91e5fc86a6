import ElmCodec.Node.Labels

/-!
# Induction over documents

Values and nodes hold their parts in lists. Both have an induction principle
with one hypothesis for each part. Labels and codecs look at the first item of a
uniform list only, and so does a third principle.
-/

namespace ElmCodec

@[elab_as_elim]
theorem Json.induct {P : Json → Prop} (null : P .null) (boolean : ∀ value, P (.boolean value))
    (number : ∀ value, P (.number value)) (string : ∀ text, P (.string text))
    (list : ∀ items, (∀ item ∈ items, P item) → P (.list items))
    (object : ∀ members, (∀ m ∈ members, P m.2) → P (.object members)) (json : Json) : P json := by
  refine @Json.rec P (fun items => ∀ item ∈ items, P item) (fun members => ∀ m ∈ members, P m.2)
    (fun m => P m.2) null boolean number string list object ?_ ?_ ?_ ?_ ?_ json
  · simp
  · intro item rest hi hr
    simpa using ⟨hi, hr⟩
  · simp
  · intro member rest hm hr
    exact List.forall_mem_cons.mpr ⟨hm, hr⟩
  · intro _ _ h
    exact h

@[elab_as_elim]
theorem Node.induct {P : Node → Prop} (scalar : ∀ path value, P (.scalar path value))
    (list : ∀ path items, (∀ item ∈ items, P item) → P (.list path items))
    (object : ∀ path members, (∀ m ∈ members, P m.2) → P (.object path members))
    (node : Node) : P node := by
  refine @Node.rec P (fun items => ∀ item ∈ items, P item) (fun members => ∀ m ∈ members, P m.2)
    (fun m => P m.2) scalar list object ?_ ?_ ?_ ?_ ?_ node
  · simp
  · intro item rest hi hr
    simpa using ⟨hi, hr⟩
  · simp
  · intro member rest hm hr
    exact List.forall_mem_cons.mpr ⟨hm, hr⟩
  · intro _ _ h
    exact h

@[elab_as_elim]
theorem Node.inductFirst {P : Node → Prop} (scalar : ∀ path value, P (.scalar path value))
    (object : ∀ path members, P (.object path members)) (empty : ∀ path, P (.list path []))
    (mixed : ∀ path first rest, isMixed (first :: rest) = true → P (.list path (first :: rest)))
    (uniform : ∀ path first rest, isMixed (first :: rest) = false → P first →
      P (.list path (first :: rest))) (node : Node) : P node := by
  induction node using Node.induct with
  | scalar path value => exact scalar path value
  | object path members => exact object path members
  | list path items ih =>
    cases items with
    | nil => exact empty path
    | cons first rest =>
      cases hm : isMixed (first :: rest) with
      | true => exact mixed path first rest hm
      | false => exact uniform path first rest hm (ih first List.mem_cons_self)

end ElmCodec
