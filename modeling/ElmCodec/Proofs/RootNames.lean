import ElmCodec.Proofs.Constructors
import ElmCodec.Proofs.Offences
import ElmCodec.Proofs.Titles

/-!
# Root labels that give no name

Below the root every name is a capital, then letters and digits, whatever keys
the path has. So only the root label can give a name that Elm does not take: one
whose title form is empty or starts with a digit. The document is looked at
first, before the members that empty keys leave at its path, so the fault is
always that of the document.
-/

namespace ElmCodec

-- ---------------------------------------------------------------------------
-- Nodes at the root's path
-- ---------------------------------------------------------------------------

theorem Path.isRoot_position (path : Path) (index : Nat) :
    (path.position index).isRoot = false := by
  simp [isRoot, position, child]

theorem Path.isRoot_field {path : Path} (h : path.isRoot = false) (key : String) :
    (path.field key).isRoot = false := by
  unfold field
  split
  · exact h
  · simp [isRoot, child]

namespace Node

def hasShape : Node → Bool
  | scalar .. => false
  | list _ items => isMixed items
  | object .. => true

variable {path : Path} {json : Json}

theorem hasShape_iff {node : Node} : node.hasShape = true ↔ ∃ shape, node.shape? = some shape := by
  cases node <;> simp [hasShape, shape?]

theorem isRoot_of_mem_preorder (h : path.isRoot = false)
    (hp : part ∈ (annotate path json).preorder) : part.path.isRoot = false := by
  obtain ⟨p, value, rfl, hroot⟩ := exists_of_mem_preorder (P := fun path _ => path.isRoot = false)
    (fun path _ i _ _ _ => path.isRoot_position i) (fun _ _ m _ h => Path.isRoot_field h m.1) h hp
  rwa [path_annotate]

theorem path_eq_of_isRoot {root : String} (hp : part ∈ (annotate (.ofRoot root) json).preorder)
    (hr : part.path.isRoot = true) : part.path = .ofRoot root := by
  obtain ⟨p, value, rfl, hroot⟩ := exists_of_mem_preorder (P := fun path _ => path.root = root)
    (fun _ _ _ _ _ h => h) (fun _ _ _ _ h => by unfold Path.field; split <;> exact h) rfl hp
  rw [path_annotate] at hr ⊢
  have hsegments : p.segments = [] := List.isEmpty_iff.mp hr
  exact congrArg₂ Path.mk hroot hsegments

theorem hasShape_of_isRoot (hp : part ∈ (annotate path json).preorder)
    (hs : part.hasShape = true) (hr : part.path.isRoot = true) :
    (annotate path json).hasShape = true := by
  cases json with
  | object members => rfl
  | list items =>
    rw [annotate, preorder_list] at hp
    rcases List.mem_cons.mp hp with rfl | hp
    · exact hs
    · obtain ⟨item, hi, hp⟩ := List.mem_flatMap.mp hp
      obtain ⟨i, value, -, rfl⟩ := mem_annotateItems hi
      simp [isRoot_of_mem_preorder (path.isRoot_position i) hp] at hr
  | _ =>
    obtain rfl := List.mem_singleton.mp hp
    exact hs

theorem exists_shapes_eq_cons {node : Node} (h : node.shape? = some shape) :
    ∃ after, node.shapes = shape :: after := by
  cases node with
  | scalar path value => simp [shape?] at h
  | list path items =>
    obtain ⟨hm, rfl⟩ := ofItems_of_shape? h
    exact ⟨_, shapes_mixed path hm⟩
  | object path members =>
    obtain rfl := Option.some.inj h
    exact ⟨_, shapes_object path members⟩

end Node

-- ---------------------------------------------------------------------------
-- Names that Elm does not take
-- ---------------------------------------------------------------------------

theorem isTypeName_iff : isTypeName name = true ↔
    ∃ c rest, name.toList = c :: rest ∧ c.isUpper = true ∧
      ∀ d ∈ rest, d.isAlphanum = true ∨ d = '_' := by
  unfold isTypeName
  cases name.toList <;> simp

theorem isTypeName_append {name digits : String} (h : isTypeName name = true)
    (hd : ∀ c ∈ digits.toList, c.isDigit = true) : isTypeName (name ++ digits) = true := by
  obtain ⟨c, rest, hn, hc, hr⟩ := isTypeName_iff.mp h
  refine isTypeName_iff.mpr ⟨c, rest ++ digits.toList, by simp [hn], hc, ?_⟩
  exact List.forall_mem_append.mpr ⟨hr, fun d hm => .inl (isAlphanum_iff.mpr (.inr (hd d hm)))⟩

theorem isTypeName_ofList (h : Alphanumeric rest) :
    isTypeName (String.ofList (c :: rest)) = c.isUpper := by
  have hr : rest.all (fun d => d.isAlphanum || d = '_') = true :=
    List.all_eq_true.mpr fun d hd => by simp [h d hd]
  have hn : (String.ofList (c :: rest)).toList = c :: rest := String.toList_ofList
  simp only [isTypeName, hn, hr, Bool.and_true]

theorem isTypeName_root_eq_false_iff (root : String) :
    isTypeName (typeName (.ofRoot root)) = false ↔
      titleCase root = [] ∨ ∃ c rest, titleCase root = c :: rest ∧ c.isDigit = true := by
  have ha := alphanumeric_titleCase root
  have hcap := capital_titleCase root
  change isTypeName (String.ofList (titleCase root)) = false ↔ _
  cases ht : titleCase root with
  | nil => exact iff_of_true rfl (.inl rfl)
  | cons c rest =>
    rw [ht] at ha hcap
    obtain ⟨hc, hr⟩ := List.forall_mem_cons.mp ha
    rw [isAlphanum_iff, isAlpha_iff, hcap c rfl] at hc
    rw [isTypeName_ofList hr]
    cases hd : c.isDigit with
    | true => simp [isUpper_of_isDigit hd, hd]
    | false =>
      have hu : c.isUpper = true := by simpa [hd] using hc
      simp [hu, hd]

namespace NameCheck

theorem run_of_not_typeName {root : String} {json : Json}
    (hs : (Node.annotate (.ofRoot root) json).hasShape = true)
    (hn : isTypeName (typeName (.ofRoot root)) = false) :
    run (.annotate (.ofRoot root) json) =
      .error (.notTypeName (typeName (.ofRoot root)) (.ofRoot root)) := by
  obtain ⟨shape, hs⟩ := Node.hasShape_iff.mp hs
  obtain ⟨after, hshapes⟩ := Node.exists_shapes_eq_cons hs
  obtain ⟨hname, hpath⟩ := Node.name_of_shape? hs
  rw [Node.path_annotate] at hname hpath
  have hfirst : (Node.annotate (.ofRoot root) json).shapes = [] ++ shape :: after := hshapes
  have hdeclares : shape.declares = [] ++ shape.name :: shape.constructors := shape.declares_eq
  have hrefused : Refused (.annotate (.ofRoot root) json) [] shape.name shape.path
      (.notTypeName (typeName (.ofRoot root)) (.ofRoot root)) := by
    rw [hname, hpath]
    exact .notTypeName hn
  rw [run_error_iff]
  exact .name hfirst nofun hdeclares (.nil _) hrefused

theorem root_of_notTypeName {root : String} {json : Json}
    (h : run (.annotate (.ofRoot root) json) = .error (.notTypeName name path)) :
    (Node.annotate (.ofRoot root) json).hasShape = true ∧
      isTypeName (typeName (.ofRoot root)) = false := by
  obtain ⟨shape, hs, hm, hn⟩ : ∃ shape ∈ (Node.annotate (.ofRoot root) json).shapes,
      name ∈ shape.declares ∧ isTypeName name = false := by
    cases run_error_iff.mp h with
    | @name before after shape done rest _ _ hshapes _ hdeclares _ hrefused =>
      cases hrefused with
      | notTypeName hn => exact ⟨shape, by simp [hshapes], by simp [hdeclares], hn⟩
  obtain ⟨part, hp, hs⟩ := List.mem_filterMap.mp hs
  obtain ⟨digits, hd, rfl⟩ := Node.exists_append_of_declares hs hm
  have hname : isTypeName (typeName part.path) = false := by
    rw [← Bool.not_eq_true]
    intro ht
    simp [isTypeName_append ht hd] at hn
  have hr : part.path.isRoot = true := by
    rw [← Bool.not_eq_false]
    intro hr
    simp [isTypeName_typeName hr] at hname
  exact ⟨Node.hasShape_of_isRoot hp (Node.hasShape_iff.mpr ⟨shape, hs⟩) hr,
    Node.path_eq_of_isRoot hp hr ▸ hname⟩

/-- The check finds a name that Elm does not take exactly if the document has a declaration
and the title form of its label is empty or starts with a digit, and that form at the
label is what it reports. Every name below the root is a capital, then letters and digits. -/
theorem run_notTypeName_iff (root : String) (json : Json) :
    ((∃ name path, run (.annotate (.ofRoot root) json) = .error (.notTypeName name path)) ↔
      (Node.annotate (.ofRoot root) json).hasShape = true ∧
        (titleCase root = [] ∨ ∃ c rest, titleCase root = c :: rest ∧ c.isDigit = true)) ∧
    (∀ name path, run (.annotate (.ofRoot root) json) = .error (.notTypeName name path) →
      name = String.ofList (titleCase root) ∧ path = .ofRoot root ∧ path.text = root) ∧
    ∀ path : Path, path.isRoot = false →
      ∃ c rest, (typeName path).toList = c :: rest ∧ c.isUpper = true ∧ Alphanumeric rest := by
  rw [← isTypeName_root_eq_false_iff]
  refine ⟨⟨?_, fun ⟨hs, hn⟩ => ⟨_, _, run_of_not_typeName hs hn⟩⟩, fun name path h => ?_,
    fun path => exists_cons_typeName⟩
  · rintro ⟨name, path, h⟩
    exact root_of_notTypeName h
  · obtain ⟨hs, hn⟩ := root_of_notTypeName h
    rw [run_of_not_typeName hs hn] at h
    cases h
    exact ⟨rfl, rfl, String.append_empty⟩

/-- A mixed list called `2 fa`, and a path whose key has no letters. -/
theorem run_notTypeName_iff_twoFa :
    (∃ name path, run (.annotate (.ofRoot "2 fa") (.list [.null, .object [("", .object [])]])) =
        .error (.notTypeName name path) ∧ name = "2Fa" ∧ path = .ofRoot "2 fa") ∧
      Path.isRoot ⟨"2 fa", [.field "日本", .position 16]⟩ = false ∧
      ∃ c rest, (typeName ⟨"2 fa", [.field "日本", .position 16]⟩).toList = c :: rest ∧
        c.isUpper = true ∧ Alphanumeric rest := by
  obtain ⟨hiff, hfault, hbelow⟩ := run_notTypeName_iff "2 fa"
    (.list [.null, .object [("", .object [])]])
  have hshape : (Node.annotate (.ofRoot "2 fa")
      (.list [.null, .object [("", .object [])]])).hasShape = true := by decide +kernel
  obtain ⟨name, path, h⟩ := hiff.mpr ⟨hshape, .inr ⟨'2', "Fa".toList, by decide +kernel, rfl⟩⟩
  obtain ⟨rfl, rfl, -⟩ := hfault name path h
  exact ⟨⟨_, _, h, by decide +kernel, rfl⟩, rfl, hbelow _ rfl⟩

end NameCheck

end ElmCodec
