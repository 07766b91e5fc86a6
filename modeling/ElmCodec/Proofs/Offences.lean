import ElmCodec.Proofs.DeclaredNames

/-!
# Which fault is reported

The name check stops at the first offence. Names come in the order of the walk,
a record's fields after its name. What stands before the offence could be
declared together, so the earlier holder of a name, and the earlier field with
an identifier, is the only one.
-/

namespace ElmCodec

-- ---------------------------------------------------------------------------
-- Offences
-- ---------------------------------------------------------------------------

/-- Why `name` cannot be declared at `path` when all this is declared. -/
inductive Refused (root : Node) (declared : List (String × Path)) (name : String) (path : Path) :
    NameFault → Prop
  | notTypeName : isTypeName name = false → Refused root declared name path (.notTypeName name path)
  | prelude : isTypeName name = true → name ∈ preludeNames →
      Refused root declared name path (.taken name .prelude path)
  | document : Declarable name → root.isRecord = false → name = documentName →
      Refused root declared name path (.taken name .documentCodec path)
  | declared {first : Path} : Declarable name → (name, first) ∈ declared →
      Refused root declared name path (.taken name (.node first) path)

/-- The fault of the first name or field that offends; nothing before it does. -/
inductive FirstOffence (root : Node) : NameFault → Prop
  | name {before after : List Shape} {shape : Shape} {done rest : List String} {name : String}
      {fault : NameFault} :
      root.shapes = before ++ shape :: after →
      (∀ earlier ∈ before, earlier.identifiers.Nodup) →
      shape.declares = done ++ name :: rest →
      Clean root (before.flatMap Shape.declarations ++ done.map fun name => (name, shape.path)) →
      Refused root (before.flatMap Shape.declarations ++ done.map fun name => (name, shape.path))
        name shape.path fault →
      FirstOffence root fault
  | field {before after : List Shape} {shape : Shape} {done rest : List Field}
      {first second : Field} :
      root.shapes = before ++ shape :: after →
      (∀ earlier ∈ before, earlier.identifiers.Nodup) →
      Clean root (before.flatMap Shape.declarations ++ shape.declarations) →
      shape.fields = done ++ second :: rest →
      (done.map (·.identifier)).Nodup →
      first ∈ done → first.identifier = second.identifier →
      FirstOffence root (.sameField shape.name second.identifier first.key second.key)

namespace NameCheck

theorem foldlM_error_iff {f : σ → α → Except ε σ} {l : List α} {s : σ} :
    l.foldlM f s = .error e ↔
      ∃ done a rest middle, l = done ++ a :: rest ∧ done.foldlM f s = .ok middle ∧
        f middle a = .error e := by
  induction l generalizing s with
  | nil => simp [pure, Except.pure]
  | cons a l ih =>
    rw [List.foldlM_cons, bind_error]
    constructor
    · rintro (h | ⟨middle, hm, h⟩)
      · exact ⟨[], a, l, s, rfl, rfl, h⟩
      · obtain ⟨done, b, rest, last, rfl, hd, hb⟩ := ih.mp h
        exact ⟨a :: done, b, rest, last, rfl, bind_ok.mpr ⟨middle, hm, hd⟩, hb⟩
    · rintro ⟨done, b, rest, last, hl, hd, hb⟩
      cases done with
      | nil =>
        obtain ⟨rfl, rfl⟩ := List.cons.inj hl
        cases hd
        exact .inl hb
      | cons c done =>
        obtain ⟨rfl, rfl⟩ := List.cons.inj hl
        obtain ⟨middle, hm, hd⟩ := bind_ok.mp hd
        exact .inr ⟨middle, hm, ih.mpr ⟨done, b, rest, last, rfl, hd, hb⟩⟩

variable {root : Node} {declared : List (String × Path)} {path : Path} {fault : NameFault}

theorem declare_error_iff (hc : Clean root declared) :
    declare (heldAfter root declared) name path = .error fault ↔
      Refused root declared name path fault := by
  have hn := (clean_iff.mp hc).2
  constructor
  · intro h
    unfold declare at h
    split at h
    · cases h
      exact .notTypeName (by simp_all)
    · rename_i ht
      split at h
      · cases h
        exact .prelude (by simpa using ht) (by simp_all)
      · rename_i hp
        have hd : Declarable name := ⟨by simpa using ht, by simpa using hp⟩
        split at h
        · rename_i holder hl
          cases h
          obtain ⟨first, hm, rfl⟩ | ⟨hr, hname, rfl⟩ := mem_heldAfter.mp (Members.mem_of_lookup hl)
          · exact .declared hd hm
          · exact .document hd hr hname
        · cases h
  · have taken : ∀ holder, Declarable name → (name, holder) ∈ heldAfter root declared →
        declare (heldAfter root declared) name path = .error (.taken name holder path) := by
      intro holder hd hm
      simp [declare, hd.1, hd.2, Members.lookup_of_mem hn hm]
    rintro (ht | ⟨ht, hp⟩ | ⟨hd, hr, hname⟩ | ⟨hd, hm⟩)
    · simp [declare, ht]
    · simp [declare, ht, hp]
    · exact taken .documentCodec hd (mem_heldAfter.mpr (.inr ⟨hr, hname, rfl⟩))
    · exact taken (.node _) hd (mem_heldAfter.mpr (.inl ⟨_, hm, rfl⟩))

theorem names_error_iff (hc : Clean root declared) {names : List String} :
    names.foldlM (fun held name => declare held name path) (heldAfter root declared) =
        .error fault ↔
      ∃ done name rest, names = done ++ name :: rest ∧
        Clean root (declared ++ done.map fun name => (name, path)) ∧
        Refused root (declared ++ done.map fun name => (name, path)) name path fault := by
  rw [foldlM_error_iff]
  constructor
  · rintro ⟨done, name, rest, middle, rfl, hd, h⟩
    obtain ⟨hdone, rfl⟩ := (names_ok_iff hc).mp hd
    exact ⟨done, name, rest, rfl, hdone, (declare_error_iff hdone).mp h⟩
  · rintro ⟨done, name, rest, rfl, hdone, h⟩
    exact ⟨done, name, rest, _, rfl, (names_ok_iff hc).mpr ⟨hdone, rfl⟩,
      (declare_error_iff hdone).mpr h⟩

-- ---------------------------------------------------------------------------
-- Fields
-- ---------------------------------------------------------------------------

def compareField (record : String) (seen : List (String × String)) (field : Field) :
    Except NameFault (List (String × String)) :=
  match seen.lookup field.identifier with
  | some first => .error (.sameField record field.identifier first field.key)
  | none => .ok ((field.identifier, field.key) :: seen)

theorem checkFields_eq (record : String) (seen : List (String × String)) (fields : List Field) :
    checkFields record seen fields =
      (fields.foldlM (compareField record) seen >>= fun _ => .ok ()) := by
  induction fields generalizing seen with
  | nil => rfl
  | cons field rest ih =>
    rw [checkFields, List.foldlM_cons, compareField]
    cases seen.lookup field.identifier with
    | some first => rfl
    | none => exact ih _

theorem fields_eq {record : String} {fields : List Field}
    (h : fields.foldlM (compareField record) seen = .ok after) :
    after = (fields.map fun field => (field.identifier, field.key)).reverse ++ seen := by
  induction fields generalizing seen with
  | nil => cases h; rfl
  | cons field rest ih =>
    rw [List.foldlM_cons, bind_ok] at h
    obtain ⟨middle, hf, h⟩ := h
    unfold compareField at hf
    split at hf <;> cases hf
    simp [ih h]

theorem fields_ok_iff {record : String} {fields : List Field} :
    fields.foldlM (compareField record) [] = .ok after ↔
      (fields.map (·.identifier)).Nodup ∧
        after = (fields.map fun field => (field.identifier, field.key)).reverse := by
  constructor
  · intro h
    have hc : checkFields record [] fields = .ok () := by rw [checkFields_eq, h]; rfl
    exact ⟨(checkFields_ok hc).1, by simpa using fields_eq h⟩
  · rintro ⟨hn, rfl⟩
    have hc : checkFields record [] fields = .ok () := checkFields_pass hn (by simp) record
    rw [checkFields_eq, bind_ok] at hc
    obtain ⟨after, h, -⟩ := hc
    rw [h, fields_eq h, List.append_nil]

theorem compareField_error_iff {record : String} {done : List Field} {second : Field}
    (hn : (done.map (·.identifier)).Nodup) :
    compareField record (done.map fun field => (field.identifier, field.key)).reverse second =
        .error fault ↔
      ∃ first ∈ done, first.identifier = second.identifier ∧
        fault = .sameField record second.identifier first.key second.key := by
  unfold compareField
  constructor
  · intro h
    split at h
    · rename_i key hl
      cases h
      have hm := Members.mem_of_lookup hl
      simp only [List.mem_reverse, List.mem_map, Prod.mk.injEq] at hm
      obtain ⟨first, hf, hi, rfl⟩ := hm
      exact ⟨first, hf, hi, rfl⟩
    · cases h
  · rintro ⟨first, hf, hi, rfl⟩
    have hkeys :
        ((done.map fun field => (field.identifier, field.key)).reverse.map (·.1)).Nodup := by
      simpa [Function.comp_def] using hn
    have hm : (second.identifier, first.key) ∈
        (done.map fun field => (field.identifier, field.key)).reverse := by
      simpa [← hi] using ⟨first, hf, rfl, rfl⟩
    rw [Members.lookup_of_mem hkeys hm]

theorem checkFields_error_iff {record : String} {fields : List Field} :
    checkFields record [] fields = .error fault ↔
      ∃ done first second rest, fields = done ++ second :: rest ∧
        (done.map (·.identifier)).Nodup ∧ first ∈ done ∧ first.identifier = second.identifier ∧
        fault = .sameField record second.identifier first.key second.key := by
  rw [checkFields_eq, bind_error]
  simp only [foldlM_error_iff, reduceCtorEq, and_false, exists_false, or_false]
  constructor
  · rintro ⟨done, second, rest, middle, rfl, hd, h⟩
    obtain ⟨hn, rfl⟩ := fields_ok_iff.mp hd
    obtain ⟨first, hf, hi, rfl⟩ := (compareField_error_iff hn).mp h
    exact ⟨done, first, second, rest, rfl, hn, hf, hi, rfl⟩
  · rintro ⟨done, first, second, rest, rfl, hn, hf, hi, rfl⟩
    exact ⟨done, second, rest, _, rfl, fields_ok_iff.mpr ⟨hn, rfl⟩,
      (compareField_error_iff hn).mpr ⟨first, hf, hi, rfl⟩⟩

-- ---------------------------------------------------------------------------
-- Shapes
-- ---------------------------------------------------------------------------

theorem checkShape_error_iff (hc : Clean root declared) {shape : Shape} :
    checkShape (heldAfter root declared) shape = .error fault ↔
      (∃ done name rest, shape.declares = done ++ name :: rest ∧
        Clean root (declared ++ done.map fun name => (name, shape.path)) ∧
        Refused root (declared ++ done.map fun name => (name, shape.path)) name shape.path fault) ∨
      (Clean root (declared ++ shape.declarations) ∧
        ∃ done first second rest, shape.fields = done ++ second :: rest ∧
          (done.map (·.identifier)).Nodup ∧ first ∈ done ∧ first.identifier = second.identifier ∧
          fault = .sameField shape.name second.identifier first.key second.key) := by
  rw [checkShape_eq, bind_error, names_error_iff hc]
  simp only [names_ok_iff hc, bind_error, checkFields_error_iff, reduceCtorEq, and_false,
    exists_false, or_false, pure, Except.pure]
  refine or_congr_right ⟨?_, ?_⟩
  · rintro ⟨_, ⟨hd, -⟩, hf⟩
    exact ⟨hd, hf⟩
  · rintro ⟨hd, hf⟩
    exact ⟨_, ⟨hd, rfl⟩, hf⟩

theorem run_error_iff {path : Path} {json : Json} :
    run (.annotate path json) = .error fault ↔ FirstOffence (.annotate path json) fault := by
  rw [run_annotate, bind_error]
  simp only [foldlM_error_iff, shapes_ok_iff (.nil _), List.nil_append, reduceCtorEq, and_false,
    exists_false, or_false]
  constructor
  · rintro ⟨before, shape, after, _, hs, ⟨hc, hi, rfl⟩, h⟩
    rcases (checkShape_error_iff hc).mp h with ⟨done, name, rest, hn, hd, h⟩ |
      ⟨hd, done, first, second, rest, hf, hn, hm, he, rfl⟩
    · exact .name hs hi hn hd h
    · exact .field hs hi hd hf hn hm he
  · rintro (⟨hs, hi, hn, hd, h⟩ | ⟨hs, hi, hd, hf, hn, hm, he⟩)
    · exact ⟨_, _, _, _, hs, ⟨hd.of_append, hi, rfl⟩,
        (checkShape_error_iff hd.of_append).mpr (.inl ⟨_, _, _, hn, hd, h⟩)⟩
    · exact ⟨_, _, _, _, hs, ⟨hd.of_append, hi, rfl⟩,
        (checkShape_error_iff hd.of_append).mpr (.inr ⟨hd, _, _, _, _, hf, hn, hm, he, rfl⟩)⟩

theorem fields_ascending {node : Node} (h : node.shape? = some shape) :
    shape.fields.Pairwise fun first second => first.key ≤ second.key := by
  cases node with
  | scalar path value => simp [Node.shape?] at h
  | list path items =>
    obtain ⟨-, rfl⟩ := Node.ofItems_of_shape? h
    exact .nil
  | object path members =>
    obtain rfl := Option.some.inj h
    exact List.Pairwise.map _ (fun _ _ hkeys => hkeys) (Members.ascending_sort members)

/-- A document passes exactly if its names can be declared together and no record has
two fields with one identifier. Any other fails with the first offence. Fields come
in the order of their keys. -/
theorem run_exact (path : Path) (json : Json) :
    (run (.annotate path json) = .ok () ↔ Checked (.annotate path json)) ∧
      (∀ fault, run (.annotate path json) = .error fault ↔
        FirstOffence (.annotate path json) fault) ∧
      ∀ shape ∈ (Node.annotate path json).shapes,
        shape.fields.Pairwise fun first second => first.key ≤ second.key := by
  refine ⟨run_ok_iff, fun fault => run_error_iff, fun shape hs => ?_⟩
  obtain ⟨node, -, hnode⟩ := List.mem_filterMap.mp hs
  exact fields_ascending hnode

end NameCheck

end ElmCodec
