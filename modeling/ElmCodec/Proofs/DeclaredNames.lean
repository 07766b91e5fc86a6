import ElmCodec.NameCheck
import ElmCodec.Proofs.Outcomes
import ElmCodec.Proofs.Traversal

/-!
# What the name check ensures

A document that passes declares type names of Elm, different from the prelude's
names and from each other, and no two fields of a record go by one name. Names
are looked at in the order of the walk, which for an annotated document is all
of its shapes.
-/

namespace ElmCodec

def Shape.declares : Shape → List String
  | record name .. => [name]
  | sum name _ variants => name :: variants.map (·.constructor)

def Shape.identifiers : Shape → List String
  | record _ _ fields => fields.map (·.identifier)
  | sum .. => []

def Shape.fields : Shape → List Field
  | record _ _ fields => fields
  | sum .. => []

theorem Shape.identifiers_eq (shape : Shape) :
    shape.identifiers = shape.fields.map (·.identifier) := by
  cases shape <;> rfl

def Shape.declarations (shape : Shape) : List (String × Path) :=
  shape.declares.map fun name => (name, shape.path)

theorem Shape.nodup_keys {path : Path} {members : List (String × Node)}
    (h : (ofMembers path members).identifiers.Nodup) :
    ((Members.sort members).map (·.1)).Nodup := by
  refine .of_map fieldName ?_
  simpa [identifiers, ofMembers, field, Function.comp_def] using h

def Declarable (name : String) : Prop := isTypeName name = true ∧ name ∉ preludeNames

/-- Declarations that can stand in one module. -/
structure Clean (root : Node) (declared : List (String × Path)) : Prop where
  declarable : ∀ d ∈ declared, Declarable d.1
  nodup : (declared.map (·.1)).Nodup
  document : root.isRecord = false → documentName ∉ declared.map (·.1)

theorem Clean.nil (root : Node) : Clean root [] := ⟨nofun, List.nodup_nil, fun _ => nofun⟩

theorem Clean.of_append {root : Node} {declared more : List (String × Path)}
    (h : Clean root (declared ++ more)) : Clean root declared where
  declarable d hd := h.declarable d (List.mem_append_left _ hd)
  nodup := by
    have hn := h.nodup
    rw [List.map_append] at hn
    exact hn.of_append_left
  document hr hm := h.document hr (by simp [hm])

/-- What holds of a document that passes the name check. -/
structure Checked (root : Node) : Prop where
  declarable : ∀ name ∈ root.shapes.flatMap Shape.declares, Declarable name
  nodup : (root.shapes.flatMap Shape.declares).Nodup
  document : root.isRecord = false → documentName ∉ root.shapes.flatMap Shape.declares
  identifiers : ∀ shape ∈ root.shapes, shape.identifiers.Nodup

def Declared (shapes : List Shape) (name : String) (path : Path) : Prop :=
  ∃ shape ∈ shapes, shape.path = path ∧ name ∈ shape.declares

namespace NameCheck

def Held.names (held : Held) : List String := held.map (·.1)

theorem lookup_eq_none {l : List (String × α)} (h : l.lookup key = none) : key ∉ l.map (·.1) := by
  intro hm
  obtain ⟨pair, hp, rfl⟩ := List.mem_map.mp hm
  simpa using List.lookup_eq_none_iff.mp h pair hp

theorem declare_ok {path : Path} (h : declare held name path = .ok after) :
    Declarable name ∧ name ∉ held.names ∧ after = (name, .node path) :: held := by
  unfold declare at h
  split at h
  · cases h
  · rename_i ht
    split at h
    · cases h
    · rename_i hp
      split at h
      · cases h
      · rename_i hl
        cases h
        exact ⟨⟨by simpa using ht, by simpa using hp⟩, lookup_eq_none hl, rfl⟩

structure Adds (held : Held) (names : List String) (after : Held) : Prop where
  declarable : ∀ name ∈ names, Declarable name
  names : after.names = names.reverse ++ held.names
  nodup : held.names.Nodup → after.names.Nodup

theorem Adds.nil : Adds held [] held := ⟨by simp, rfl, id⟩

theorem Adds.append (hf : Adds held first middle) (hs : Adds middle second after) :
    Adds held (first ++ second) after where
  declarable name hn := (List.mem_append.mp hn).elim (hf.declarable name) (hs.declarable name)
  names := by rw [hs.names, hf.names]; simp
  nodup h := hs.nodup (hf.nodup h)

theorem Adds.of_declare {path : Path} (h : declare held name path = .ok after) :
    Adds held [name] after := by
  obtain ⟨hd, hn, rfl⟩ := declare_ok h
  exact ⟨by simpa using hd, rfl, fun hh => List.nodup_cons.mpr ⟨hn, hh⟩⟩

theorem Adds.of_names {path : Path} {names : List String}
    (h : names.foldlM (fun held name => declare held name path) held = .ok after) :
    Adds held names after := by
  induction names generalizing held with
  | nil =>
    cases h
    exact .nil
  | cons name rest ih =>
    rw [List.foldlM_cons, bind_ok] at h
    obtain ⟨middle, hf, hr⟩ := h
    exact (Adds.of_declare hf).append (ih hr)

theorem checkFields_ok {fields : List Field} (h : checkFields record seen fields = .ok u) :
    (fields.map (·.identifier)).Nodup ∧
      ∀ field ∈ fields, field.identifier ∉ seen.map (·.1) := by
  induction fields generalizing seen with
  | nil => simp
  | cons field rest ih =>
    rw [checkFields] at h
    split at h
    · cases h
    · rename_i hl
      obtain ⟨hr, hs⟩ := ih h
      refine ⟨List.nodup_cons.mpr ⟨fun hm => ?_, hr⟩, List.forall_mem_cons.mpr
        ⟨lookup_eq_none hl, fun other ho hm => hs other ho (List.mem_cons_of_mem _ hm)⟩⟩
      obtain ⟨other, ho, he⟩ := List.mem_map.mp hm
      exact hs other ho (by simp [he])

-- ---------------------------------------------------------------------------
-- What the check asks for
-- ---------------------------------------------------------------------------

theorem lookup_of_not_mem {l : List (String × α)} (h : key ∉ l.map (·.1)) :
    l.lookup key = none := by
  rw [List.lookup_eq_none_iff]
  intro pair hp
  rw [bne_iff_ne]
  rintro rfl
  exact h (List.mem_map_of_mem hp)

theorem declare_pass (hd : Declarable name) (hn : name ∉ held.names) (path : Path) :
    declare held name path = .ok ((name, .node path) :: held) := by
  simp [declare, hd.1, hd.2, lookup_of_not_mem hn]

theorem checkFields_pass {fields : List Field} (hn : (fields.map (·.identifier)).Nodup)
    (hs : ∀ field ∈ fields, field.identifier ∉ seen.map (·.1)) (record : String) :
    checkFields record seen fields = .ok () := by
  induction fields generalizing seen with
  | nil => rfl
  | cons field rest ih =>
    obtain ⟨hf, hn⟩ := List.nodup_cons.mp hn
    obtain ⟨hfs, hs⟩ := List.forall_mem_cons.mp hs
    rw [checkFields, lookup_of_not_mem hfs]
    refine ih hn fun other ho hm => ?_
    rcases List.mem_cons.mp hm with he | hm
    · exact hf (he ▸ List.mem_map_of_mem ho)
    · exact hs other ho hm

theorem names_pass {names : List String} (path : Path) (hd : ∀ name ∈ names, Declarable name)
    (hn : names.Nodup) (hh : ∀ name ∈ names, name ∉ held.names) :
    ∃ after, names.foldlM (fun held name => declare held name path) held = .ok after := by
  induction names generalizing held with
  | nil => exact ⟨held, rfl⟩
  | cons name rest ih =>
    obtain ⟨hdn, hd⟩ := List.forall_mem_cons.mp hd
    obtain ⟨hnr, hn⟩ := List.nodup_cons.mp hn
    obtain ⟨hhn, hh⟩ := List.forall_mem_cons.mp hh
    rw [List.foldlM_cons, declare_pass hdn hhn]
    refine ih hd hn fun other ho hm => ?_
    rcases List.mem_cons.mp hm with rfl | hm
    · exact hnr ho
    · exact hh other ho hm

-- ---------------------------------------------------------------------------
-- What is held
-- ---------------------------------------------------------------------------

def heldAfter (root : Node) (declared : List (String × Path)) : Held :=
  (declared.map fun d => (d.1, Holder.node d.2)).reverse ++ reserved root

theorem heldAfter_append (root : Node) (first second : List (String × Path)) :
    heldAfter root (first ++ second) =
      (second.map fun d => (d.1, Holder.node d.2)).reverse ++ heldAfter root first := by
  simp [heldAfter]

theorem mem_heldAfter {root : Node} {declared : List (String × Path)} :
    (name, holder) ∈ heldAfter root declared ↔
      (∃ first, (name, first) ∈ declared ∧ holder = .node first) ∨
        (root.isRecord = false ∧ name = documentName ∧ holder = .documentCodec) := by
  cases hr : root.isRecord <;> simp [heldAfter, reserved, hr, eq_comm]

theorem names_heldAfter (root : Node) (declared : List (String × Path)) :
    (heldAfter root declared).names = (declared.map (·.1)).reverse ++ (reserved root).names := by
  simp [heldAfter, Held.names]

theorem clean_iff {root : Node} {declared : List (String × Path)} :
    Clean root declared ↔
      (∀ d ∈ declared, Declarable d.1) ∧ (heldAfter root declared).names.Nodup := by
  rw [names_heldAfter, List.nodup_append, List.nodup_reverse]
  constructor
  · rintro ⟨hd, hn, hdoc⟩
    refine ⟨hd, hn, by unfold reserved; split <;> simp [Held.names], ?_⟩
    rintro name hm _ hr rfl
    unfold reserved at hr
    split at hr
    · simp [Held.names] at hr
    · rename_i hrec
      obtain rfl := List.mem_singleton.mp hr
      exact hdoc (by simpa using hrec) (List.mem_reverse.mp hm)
  · rintro ⟨hd, hn, -, hapart⟩
    refine ⟨hd, hn, fun hr hm => ?_⟩
    exact hapart _ (List.mem_reverse.mpr hm) documentName (by simp [reserved, hr, Held.names]) rfl

theorem names_eq {path : Path} {names : List String}
    (h : names.foldlM (fun held name => declare held name path) held = .ok after) :
    after = (names.map fun name => (name, .node path)).reverse ++ held := by
  induction names generalizing held with
  | nil => cases h; rfl
  | cons name rest ih =>
    rw [List.foldlM_cons, bind_ok] at h
    obtain ⟨middle, hn, h⟩ := h
    obtain ⟨-, -, rfl⟩ := declare_ok hn
    simp [ih h]

section
variable {root : Node} {declared : List (String × Path)}

theorem names_ok_iff {path : Path} (hc : Clean root declared) {names : List String} :
    names.foldlM (fun held name => declare held name path) (heldAfter root declared) = .ok after ↔
      Clean root (declared ++ names.map fun name => (name, path)) ∧
        after = heldAfter root (declared ++ names.map fun name => (name, path)) := by
  have hheld : heldAfter root (declared ++ names.map fun name => (name, path)) =
      (names.map fun name => (name, .node path)).reverse ++ heldAfter root declared := by
    simp [heldAfter_append]
  have hnames : (heldAfter root (declared ++ names.map fun name => (name, path))).names =
      names.reverse ++ (heldAfter root declared).names := by
    simp [names_heldAfter, Function.comp_def]
  obtain ⟨hd, hn⟩ := clean_iff.mp hc
  rw [clean_iff, hnames]
  constructor
  · intro h
    have hadds := Adds.of_names h
    refine ⟨⟨?_, hadds.names ▸ hadds.nodup hn⟩, hheld ▸ names_eq h⟩
    intro d hm
    rcases List.mem_append.mp hm with hm | hm
    · exact hd d hm
    · obtain ⟨name, hname, rfl⟩ := List.mem_map.mp hm
      exact hadds.declarable name hname
  · rintro ⟨⟨hd, hn⟩, rfl⟩
    rw [List.nodup_append, List.nodup_reverse] at hn
    have hheldNames : ∀ name ∈ names, name ∉ (heldAfter root declared).names :=
      fun name hm hh => hn.2.2 name (List.mem_reverse.mpr hm) name hh rfl
    obtain ⟨after, ha⟩ := names_pass path (fun name hm => hd (name, path) (by simp [hm])) hn.1
      hheldNames
    rw [ha, names_eq ha, hheld]

theorem checkShape_eq (held : Held) (shape : Shape) :
    checkShape held shape = (do
      let held ← shape.declares.foldlM (fun held name => declare held name shape.path) held
      checkFields shape.name [] shape.fields
      return held) := by
  cases shape with
  | record name path fields =>
    simp [checkShape, Shape.declares, Shape.fields, Shape.path, Shape.name]
  | sum name path variants =>
    have hfields : checkFields name [] [] = pure () := rfl
    simp [checkShape, Shape.declares, Shape.fields, Shape.path, Shape.name, hfields,
      List.foldlM_map]

theorem checkShape_ok_iff (hc : Clean root declared) {shape : Shape} :
    checkShape (heldAfter root declared) shape = .ok after ↔
      Clean root (declared ++ shape.declarations) ∧ shape.identifiers.Nodup ∧
        after = heldAfter root (declared ++ shape.declarations) := by
  rw [checkShape_eq, shape.identifiers_eq]
  simp only [bind_ok, names_ok_iff hc]
  constructor
  · rintro ⟨_, ⟨hd, rfl⟩, _, hf, h⟩
    cases h
    exact ⟨hd, (checkFields_ok hf).1, rfl⟩
  · rintro ⟨hd, hn, rfl⟩
    exact ⟨_, ⟨hd, rfl⟩, (), checkFields_pass hn (by simp) shape.name, rfl⟩

theorem shapes_ok_iff (hc : Clean root declared) {shapes : List Shape} :
    shapes.foldlM checkShape (heldAfter root declared) = .ok after ↔
      Clean root (declared ++ shapes.flatMap Shape.declarations) ∧
        (∀ shape ∈ shapes, shape.identifiers.Nodup) ∧
        after = heldAfter root (declared ++ shapes.flatMap Shape.declarations) := by
  induction shapes generalizing declared with
  | nil => simp [hc, pure, Except.pure, eq_comm]
  | cons shape rest ih =>
    simp only [List.foldlM_cons, bind_ok, checkShape_ok_iff hc, List.flatMap_cons,
      List.forall_mem_cons, ← List.append_assoc]
    constructor
    · rintro ⟨_, ⟨hd, hn, rfl⟩, h⟩
      obtain ⟨hr, hnr, rfl⟩ := (ih hd).mp h
      exact ⟨hr, ⟨hn, hnr⟩, rfl⟩
    · rintro ⟨hr, ⟨hn, hnr⟩, rfl⟩
      have hd := hr.of_append
      exact ⟨_, ⟨hd, hn, rfl⟩, (ih hd).mpr ⟨hr, hnr, rfl⟩⟩

end

-- ---------------------------------------------------------------------------
-- Documents
-- ---------------------------------------------------------------------------

theorem run_forM_visit (shapes : List Shape) (held : Held) :
    (shapes.forM visit).run held =
      shapes.foldlM checkShape held >>= fun after => .ok ((), after) := by
  induction shapes generalizing held with
  | nil => rfl
  | cons shape rest ih =>
    have hstep : ((shape :: rest).forM visit).run held =
        checkShape held shape >>= fun middle => (rest.forM visit).run middle := by
      simp [List.forM, visit]
    rw [hstep, List.foldlM_cons, bind_assoc]
    exact bind_congr ih

variable {path : Path} {json : Json}

theorem run_annotate (path : Path) (json : Json) :
    run (.annotate path json) =
      (Node.annotate path json).shapes.foldlM checkShape (heldAfter (.annotate path json) []) >>=
        fun _ => .ok () := by
  rw [run, Node.walk_eq_forM, Node.visited_annotate, run_forM_visit, bind_assoc]
  rfl

theorem checked_iff {root : Node} :
    Checked root ↔ Clean root (root.shapes.flatMap Shape.declarations) ∧
      ∀ shape ∈ root.shapes, shape.identifiers.Nodup := by
  have hnames : (root.shapes.flatMap Shape.declarations).map (·.1) =
      root.shapes.flatMap Shape.declares := by
    simp [List.map_flatMap, Shape.declarations, Function.comp_def]
  constructor
  · rintro ⟨hd, hn, hdoc, hi⟩
    rw [← hnames] at hd hn hdoc
    exact ⟨⟨fun d hm => hd d.1 (List.mem_map_of_mem hm), hn, hdoc⟩, hi⟩
  · rintro ⟨⟨hd, hn, hdoc⟩, hi⟩
    rw [hnames] at hn hdoc
    refine ⟨fun name hm => ?_, hn, hdoc, hi⟩
    rw [← hnames] at hm
    obtain ⟨d, hmem, rfl⟩ := List.mem_map.mp hm
    exact hd d hmem

/-- The check lets exactly those documents pass whose names would compile. -/
theorem run_ok_iff : run (.annotate path json) = .ok () ↔ Checked (.annotate path json) := by
  rw [run_annotate, bind_ok, checked_iff]
  simp only [shapes_ok_iff (.nil _), List.nil_append]
  constructor
  · rintro ⟨_, ⟨hc, hi, -⟩, -⟩
    exact ⟨hc, hi⟩
  · rintro ⟨hc, hi⟩
    exact ⟨_, ⟨hc, hi, rfl⟩, trivial⟩

-- ---------------------------------------------------------------------------
-- Who is named in a fault
-- ---------------------------------------------------------------------------

/-- Nodes that hold a name declare it, and so do the nodes that a fault says have
one name. -/
def Faithful (shapes : List Shape) : Except NameFault Held → Prop
  | .ok held => ∀ name path, (name, .node path) ∈ held → Declared shapes name path
  | .error (.taken name first second) =>
    (∀ path, first = .node path → Declared shapes name path) ∧ Declared shapes name second
  | .error _ => True

variable {shapes : List Shape}

theorem Faithful.bind {x : Except NameFault Held} (hx : Faithful shapes x)
    {f : Held → Except NameFault Held}
    (hf : ∀ held, Faithful shapes (.ok held) → Faithful shapes (f held)) :
    Faithful shapes (x >>= f) := by
  cases x with
  | error fault => exact hx
  | ok held => exact hf held hx

theorem Faithful.declare (h : Faithful shapes (.ok held)) (hn : Declared shapes name path) :
    Faithful shapes (declare held name path) := by
  unfold NameCheck.declare
  split
  · trivial
  · split
    · exact ⟨nofun, hn⟩
    · split
      · rename_i first hl
        exact ⟨fun p hp => h name p (hp ▸ Members.mem_of_lookup hl), hn⟩
      · intro other p hm
        rcases List.mem_cons.mp hm with he | hm
        · cases he
          exact hn
        · exact h other p hm

theorem checkFields_error {fields : List Field}
    (h : checkFields record seen fields = .error fault) :
    ∃ identifier first second, fault = .sameField record identifier first second := by
  induction fields generalizing seen with
  | nil => cases h
  | cons field rest ih =>
    rw [checkFields] at h
    split at h
    · cases h
      exact ⟨_, _, _, rfl⟩
    · exact ih h

theorem Faithful.names {names : List String} (h : Faithful shapes (.ok held))
    (hn : ∀ name ∈ names, Declared shapes name path) :
    Faithful shapes (names.foldlM (fun held name => NameCheck.declare held name path) held) := by
  induction names generalizing held with
  | nil => exact h
  | cons name rest ih =>
    obtain ⟨hn, hr⟩ := List.forall_mem_cons.mp hn
    rw [List.foldlM_cons]
    exact (h.declare hn).bind fun held h => ih h hr

theorem Faithful.checkShape (h : Faithful shapes (.ok held)) (hs : shape ∈ shapes) :
    Faithful shapes (checkShape held shape) := by
  rw [checkShape_eq]
  refine (h.names fun name hn => ⟨shape, hs, rfl, hn⟩).bind fun held h => ?_
  cases hf : checkFields shape.name [] shape.fields with
  | ok _ => exact h
  | error fault =>
    obtain ⟨_, _, _, rfl⟩ := checkFields_error hf
    trivial

theorem Faithful.of_error {visited : List Shape} (h : Faithful shapes (.ok held))
    (hs : visited ⊆ shapes) (he : visited.foldlM NameCheck.checkShape held = .error fault) :
    Faithful shapes (.error fault) := by
  induction visited generalizing held with
  | nil => cases he
  | cons shape rest ih =>
    obtain ⟨hshape, hrest⟩ := List.cons_subset.mp hs
    rw [List.foldlM_cons, bind_error] at he
    have hc := h.checkShape hshape
    rcases he with he | ⟨middle, hm, he⟩
    · exact he ▸ hc
    · exact ih (hm ▸ hc) hrest he

theorem declared_of_taken
    (h : run (.annotate path json) = .error (.taken name (.node first) second)) :
    Declared (Node.annotate path json).shapes name first ∧
      Declared (Node.annotate path json).shapes name second := by
  have hreserved : Faithful (Node.annotate path json).shapes
      (.ok (heldAfter (.annotate path json) [])) := by
    intro name path hm
    simp [mem_heldAfter] at hm
  rw [run_annotate] at h
  rcases bind_error.mp h with h | ⟨_, -, h⟩
  · obtain ⟨hf, hs⟩ := hreserved.of_error (List.Subset.refl _) h
    exact ⟨hf first rfl, hs⟩
  · cases h

end NameCheck

end ElmCodec
