import ElmCodec.Proofs.Annotation
import ElmCodec.Shape.Walk

/-!
# The walk misses nothing

The walk visits a list of shapes that no visitor can change (`walk_eq_forM`).
In an annotated document these are the shapes of all objects and all mixed
lists of the whole tree: a label without generated names leaves nothing to
declare below it, and any other label belongs to one item, so the first item of
a uniform list stands for the others.
-/

namespace ElmCodec.Node

-- ---------------------------------------------------------------------------
-- Visited shapes
-- ---------------------------------------------------------------------------

mutual

/-- The shapes that the walk visits, in its order. -/
def visited : Node → List Shape
  | scalar .. => []
  | object path members =>
    .ofMembers path members :: (Members.sort (visitedMembers members)).flatMap (·.2)
  | list _ [] => []
  | list path (first :: rest) =>
    if isMixed (first :: rest) then .ofItems path (first :: rest) :: visitedItems (first :: rest)
    else if first.isDeclaring then visited first
    else []

def visitedItems : List Node → List Shape
  | [] => []
  | item :: rest => (if item.isDeclaring then visited item else []) ++ visitedItems rest

def visitedMembers : List (String × Node) → List (String × List Shape)
  | [] => []
  | (key, node) :: rest =>
    (key, if node.isDeclaring then visited node else []) :: visitedMembers rest

end

def descend (node : Node) : List Shape := if node.isDeclaring then node.visited else []

theorem visitedItems_eq_flatMap (items : List Node) :
    visitedItems items = items.flatMap descend := by
  induction items with
  | nil => rfl
  | cons item rest ih => simp [visitedItems, ih, descend]

theorem visitedMembers_eq_map (members : List (String × Node)) :
    visitedMembers members = members.map fun m => (m.1, m.2.descend) := by
  induction members with
  | nil => rfl
  | cons member rest ih => simp [visitedMembers, ih, descend]

theorem visited_object (path : Path) (members : List (String × Node)) :
    (object path members).visited =
      .ofMembers path members :: (Members.sort members).flatMap (·.2.descend) := by
  rw [visited, visitedMembers_eq_map, Members.sort_map fun m : String × Node => m.2.descend,
    List.flatMap_map]

theorem visited_mixed (path : Path) (h : isMixed items = true) :
    (list path items).visited = .ofItems path items :: items.flatMap descend := by
  cases items with
  | nil => simp at h
  | cons first rest => rw [visited, if_pos h, visitedItems_eq_flatMap]

theorem visited_uniform (path : Path) (h : isMixed (first :: rest) = false) :
    (list path (first :: rest)).visited = first.descend := by
  simp [visited, h, descend]

-- ---------------------------------------------------------------------------
-- One list of shapes for every visitor
-- ---------------------------------------------------------------------------

section
variable {m : Type → Type} [Monad m]

def walkPart (visit : Shape → m Unit) (node : Node) : m Unit :=
  if node.isDeclaring then node.walk visit else pure ()

theorem walkItems_eq_forM (visit : Shape → m Unit) (items : List Node) :
    walkItems visit items = items.forM (walkPart visit) := by
  induction items with
  | nil => rfl
  | cons item rest ih => rw [walkItems, ih]; rfl

theorem walkMembers_eq_map (visit : Shape → m Unit) (members : List (String × Node)) :
    walkMembers visit members = members.map fun m => (m.1, m.2.walkPart visit) := by
  induction members with
  | nil => rfl
  | cons member rest ih => simp [walkMembers, ih, walkPart]

variable [LawfulMonad m]

theorem forM_walkPart {visit : Shape → m Unit} (node : α → Node) {parts : List α}
    (h : ∀ a ∈ parts, (node a).walk visit = (node a).visited.forM visit) :
    (parts.forM fun a => (node a).walkPart visit) =
      (parts.flatMap fun a => (node a).descend).forM visit := by
  induction parts with
  | nil => rfl
  | cons a rest ih =>
    obtain ⟨ha, hr⟩ := List.forall_mem_cons.mp h
    have hpart : (node a).walkPart visit = (node a).descend.forM visit := by
      unfold walkPart descend
      split
      · exact ha
      · rfl
    simp only [List.forM_eq_forM] at ih hpart
    simp [List.forM_eq_forM, ih hr, hpart]

theorem walk_eq_forM (visit : Shape → m Unit) (node : Node) :
    node.walk visit = node.visited.forM visit := by
  induction node using Node.induct with
  | scalar path value => rfl
  | list path items ih =>
    cases items with
    | nil => rfl
    | cons first rest =>
      cases hm : isMixed (first :: rest) with
      | true =>
        rw [walk, if_pos hm, walkItems_eq_forM, visited_mixed path hm]
        exact congrArg (visit (.ofItems path (first :: rest)) >>= fun _ => ·) (forM_walkPart id ih)
      | false =>
        have hf : ∀ item ∈ [first], item.walk visit = item.visited.forM visit := by
          intro item hi
          obtain rfl := List.mem_singleton.mp hi
          exact ih item List.mem_cons_self
        have h := forM_walkPart id hf
        rw [visited_uniform path hm]
        simpa [walk, hm, walkPart] using h
  | object path members ih =>
    have hm : ∀ m ∈ Members.sort members, m.2.walk visit = m.2.visited.forM visit :=
      fun m hm => ih m (Members.mem_sort.mp hm)
    have h := forM_walkPart (fun m : String × Node => m.2) hm
    rw [visited_object, walk, walkMembers_eq_map,
      Members.sort_map fun m : String × Node => m.2.walkPart visit]
    simp only [List.forM_eq_forM, List.forM_cons] at h ⊢
    rw [← h, List.forM_map]

end

-- ---------------------------------------------------------------------------
-- All shapes of a tree
-- ---------------------------------------------------------------------------

mutual

/-- Every node of a tree: parents first, object members in ascending order of
their keys, list items in order. -/
def preorder : Node → List Node
  | scalar path value => [scalar path value]
  | list path items => list path items :: preorderItems items
  | object path members =>
    object path members :: (Members.sort (preorderMembers members)).flatMap (·.2)

def preorderItems : List Node → List Node
  | [] => []
  | item :: rest => preorder item ++ preorderItems rest

def preorderMembers : List (String × Node) → List (String × List Node)
  | [] => []
  | (key, node) :: rest => (key, preorder node) :: preorderMembers rest

end

def shape? : Node → Option Shape
  | scalar .. => none
  | list path items => if isMixed items then some (.ofItems path items) else none
  | object path members => some (.ofMembers path members)

def shapes (node : Node) : List Shape := node.preorder.filterMap shape?

theorem ofItems_of_shape? {path : Path} {items : List Node}
    (h : (list path items).shape? = some sum) : isMixed items = true ∧ sum = .ofItems path items := by
  simp only [shape?, Option.ite_none_right_eq_some, Option.some.injEq] at h
  exact ⟨h.1, h.2.symm⟩

theorem shape?_mixed (path : Path) (h : isMixed items = true) :
    (list path items).shape? = some (.ofItems path items) := if_pos h

theorem name_of_shape? {node : Node} (h : node.shape? = some shape) :
    shape.name = typeName node.path ∧ shape.path = node.path := by
  cases node with
  | scalar path value => simp [shape?] at h
  | list path items =>
    rw [(ofItems_of_shape? h).2]
    exact ⟨rfl, rfl⟩
  | object path members => exact Option.some.inj h ▸ ⟨rfl, rfl⟩

theorem preorderItems_eq_flatMap (items : List Node) :
    preorderItems items = items.flatMap preorder := by
  induction items with
  | nil => rfl
  | cons item rest ih => simp [preorderItems, ih]

theorem preorderMembers_eq_map (members : List (String × Node)) :
    preorderMembers members = members.map fun m => (m.1, m.2.preorder) := by
  induction members with
  | nil => rfl
  | cons member rest ih => simp [preorderMembers, ih]

theorem preorder_list (path : Path) (items : List Node) :
    (list path items).preorder = list path items :: items.flatMap preorder := by
  rw [preorder, preorderItems_eq_flatMap]

theorem preorder_object (path : Path) (members : List (String × Node)) :
    (object path members).preorder =
      object path members :: (Members.sort members).flatMap (·.2.preorder) := by
  rw [preorder, preorderMembers_eq_map, Members.sort_map fun m : String × Node => m.2.preorder,
    List.flatMap_map]

theorem mem_preorder_self (node : Node) : node ∈ node.preorder := by
  cases node <;> exact List.mem_cons_self

theorem mem_preorder_list (path : Path) (hi : item ∈ items) (hp : part ∈ item.preorder) :
    part ∈ (list path items).preorder := by
  rw [preorder_list]
  exact List.mem_cons_of_mem _ (List.mem_flatMap.mpr ⟨item, hi, hp⟩)

theorem mem_preorder_object (path : Path) (hm : member ∈ members)
    (hp : part ∈ member.2.preorder) : part ∈ (object path members).preorder := by
  rw [preorder_object]
  exact List.mem_cons_of_mem _ (List.mem_flatMap.mpr ⟨member, Members.mem_sort.mpr hm, hp⟩)

theorem sublist_flatMap {parts : List α} (f : α → List β) (ha : a ∈ parts) :
    (f a).Sublist (parts.flatMap f) := by
  rw [List.flatMap_def]
  exact List.sublist_flatten_of_mem (List.mem_map.mpr ⟨a, ha, rfl⟩)

theorem preorder_sublist (node : Node) (h : part ∈ node.preorder) :
    part.preorder.Sublist node.preorder := by
  induction node using Node.induct with
  | scalar path value => exact List.mem_singleton.mp h ▸ List.Sublist.refl _
  | list path items ih =>
    rw [preorder_list] at h ⊢
    rcases List.mem_cons.mp h with rfl | h
    · exact (preorder_list path items).symm ▸ List.Sublist.refl _
    · obtain ⟨item, hi, hp⟩ := List.mem_flatMap.mp h
      exact ((ih item hi hp).trans (sublist_flatMap preorder hi)).cons _
  | object path members ih =>
    rw [preorder_object] at h ⊢
    rcases List.mem_cons.mp h with rfl | h
    · exact (preorder_object path members).symm ▸ List.Sublist.refl _
    · obtain ⟨m, hm, hp⟩ := List.mem_flatMap.mp h
      exact ((ih m (Members.mem_sort.mp hm) hp).trans
        (sublist_flatMap (fun m : String × Node => m.2.preorder) hm)).cons _

/-- The nodes of an annotated tree are annotations of parts of the value, and have
what the root has and a node passes on to its items and members. -/
theorem exists_of_mem_preorder {P : Path → Json → Prop}
    (item : ∀ path items i json, items[i]? = some json → P path (.list items) →
      P (path.position i) json)
    (member : ∀ path members, ∀ m ∈ members, P path (.object members) → P (path.field m.1) m.2)
    {path : Path} {json : Json} (h : P path json) (hp : part ∈ (annotate path json).preorder) :
    ∃ p value, part = annotate p value ∧ P p value := by
  induction json using Json.induct generalizing path with
  | list items ih =>
    rw [annotate, preorder_list] at hp
    rcases List.mem_cons.mp hp with rfl | hp
    · exact ⟨path, .list items, rfl, h⟩
    · obtain ⟨node, hn, hp⟩ := List.mem_flatMap.mp hp
      obtain ⟨i, hi⟩ := List.getElem?_of_mem hn
      rw [getElem?_annotateItems, Option.map_eq_some_iff] at hi
      obtain ⟨json, hj, rfl⟩ := hi
      exact ih json (List.mem_of_getElem? hj) (item path items i json hj h) hp
  | object members ih =>
    rw [annotate, preorder_object] at hp
    rcases List.mem_cons.mp hp with rfl | hp
    · exact ⟨path, .object members, rfl, h⟩
    · obtain ⟨node, hn, hp⟩ := List.mem_flatMap.mp hp
      obtain ⟨m, hm, rfl⟩ := mem_annotateMembers (Members.mem_sort.mp hn)
      exact ih m hm (member path members m hm h) hp
  | _ =>
    refine ⟨path, _, ?_, h⟩
    simpa [annotate, preorder] using hp

theorem exists_values {path : Path} {json : Json}
    (h : list listPath items ∈ (annotate path json).preorder) :
    ∃ values, items = annotateItems listPath 0 values := by
  obtain ⟨_, value, he, -⟩ := exists_of_mem_preorder (P := fun _ _ => True)
    (fun _ _ _ _ _ _ => trivial) (fun _ _ _ _ _ => trivial) trivial h
  obtain ⟨values, rfl, rfl, rfl⟩ := exists_list_of_annotate he.symm
  exact ⟨values, rfl⟩

theorem shapes_object (path : Path) (members : List (String × Node)) :
    (object path members).shapes =
      .ofMembers path members :: (Members.sort members).flatMap (·.2.shapes) := by
  simp [shapes, preorder_object, shape?, List.filterMap_flatMap]

theorem shapes_mixed (path : Path) (h : isMixed items = true) :
    (list path items).shapes = .ofItems path items :: items.flatMap shapes := by
  simp [shapes, preorder_list, shape?, h, List.filterMap_flatMap]
  rfl

theorem shapes_uniform (path : Path) (h : isMixed items = false) :
    (list path items).shapes = items.flatMap shapes := by
  simp [shapes, preorder_list, shape?, h, List.filterMap_flatMap]
  rfl

theorem mem_shapes_self {node : Node} (h : node.shape? = some shape) : shape ∈ node.shapes :=
  List.mem_filterMap.mpr ⟨node, node.mem_preorder_self, h⟩

theorem shapes_sublist (node : Node) (h : part ∈ node.preorder) :
    part.shapes.Sublist node.shapes :=
  (preorder_sublist node h).filterMap shape?

theorem mem_shapes_list (path : Path) (hi : item ∈ items) (hs : shape ∈ item.shapes) :
    shape ∈ (list path items).shapes := by
  have hmem : shape ∈ items.flatMap shapes := List.mem_flatMap.mpr ⟨item, hi, hs⟩
  cases hm : isMixed items with
  | true =>
    rw [shapes_mixed path hm]
    exact List.mem_cons_of_mem _ hmem
  | false =>
    rw [shapes_uniform path hm]
    exact hmem

theorem mem_shapes_object (path : Path) (hm : member ∈ members) (hs : shape ∈ member.2.shapes) :
    shape ∈ (object path members).shapes := by
  rw [shapes_object]
  exact List.mem_cons_of_mem _ (List.mem_flatMap.mpr ⟨member, Members.mem_sort.mpr hm, hs⟩)

theorem mem_shapes_of_visited (node : Node) (h : shape ∈ node.visited) :
    shape ∈ node.shapes := by
  have part : ∀ {part : Node}, (shape ∈ part.visited → shape ∈ part.shapes) →
      shape ∈ part.descend → shape ∈ part.shapes := by
    intro part hp hd
    unfold descend at hd
    split at hd
    · exact hp hd
    · simp at hd
  induction node using Node.induct with
  | scalar path value => exact h
  | list path items ih =>
    cases items with
    | nil => simp [visited] at h
    | cons first rest =>
      cases hm : isMixed (first :: rest) with
      | true =>
        rw [visited_mixed path hm] at h
        rw [shapes_mixed path hm]
        rcases List.mem_cons.mp h with rfl | h
        · exact List.mem_cons_self
        · obtain ⟨item, hi, h⟩ := List.mem_flatMap.mp h
          exact List.mem_cons_of_mem _ (List.mem_flatMap.mpr ⟨item, hi, part (ih item hi) h⟩)
      | false =>
        rw [visited_uniform path hm] at h
        exact mem_shapes_list path List.mem_cons_self (part (ih first List.mem_cons_self) h)
  | object path members ih =>
    rw [visited_object] at h
    rcases List.mem_cons.mp h with rfl | h
    · simp [shapes_object]
    · obtain ⟨m, hm, h⟩ := List.mem_flatMap.mp h
      have hm := Members.mem_sort.mp hm
      exact mem_shapes_object path hm (part (ih m hm) h)

-- ---------------------------------------------------------------------------
-- What is left out declares nothing
-- ---------------------------------------------------------------------------

theorem shapes_eq_nil (node : Node) (h : node.label.names = []) : node.shapes = [] := by
  induction node using Node.induct with
  | scalar path value => rfl
  | list path items ih =>
    cases hm : isMixed items with
    | true => simp [label_list_mixed path hm] at h
    | false =>
      rw [shapes_uniform path hm, List.flatMap_eq_nil_iff]
      intro item hi
      cases items with
      | nil => simp at hi
      | cons first rest =>
        rw [label_list_uniform path hm] at h
        refine ih item hi ?_
        rw [label_eq_of_not_mixed hm hi List.mem_cons_self]
        simpa using h
  | object path members ih => simp at h

theorem shapes_eq_nil_of_not_declaring {node : Node} (h : node.isDeclaring = false) :
    node.shapes = [] := by
  cases node with
  | scalar path value => rfl
  | list path items =>
    simp only [isDeclaring, Bool.or_eq_false_iff, List.any_eq_false] at h
    rw [shapes_uniform path h.2, List.flatMap_eq_nil_iff]
    intro item hi
    cases item with
    | scalar path value => rfl
    | _ => exact absurd rfl (h.1 _ hi)
  | object path members => simp [isDeclaring] at h

theorem descend_eq_shapes {node : Node} (h : node.visited = node.shapes) :
    node.descend = node.shapes := by
  unfold descend
  split
  · exact h
  · rename_i hd
    rw [shapes_eq_nil_of_not_declaring (by simpa using hd)]

/-- No object and no mixed list, at any depth. -/
def DeclaresNothing (node : Node) : Prop :=
  (∀ path members, object path members ∉ node.preorder) ∧
    ∀ path items, list path items ∈ node.preorder → isMixed items = false

theorem declaresNothing_of_names {node : Node} (h : node.label.names = []) :
    node.DeclaresNothing := by
  have hshapes := List.filterMap_eq_nil_iff.mp (shapes_eq_nil node h)
  refine ⟨fun path members hp => ?_, fun path items hp => ?_⟩
  · cases hshapes _ hp
  · cases hm : isMixed items with
    | false => rfl
    | true => cases (shape?_mixed path hm).symm.trans (hshapes _ hp)

/-- A label that mentions a generated name belongs to one item of its list, and items that
share a label hold no object and no mixed list. Two positions below a path have different
type names. -/
theorem items_apart (path : Path) (json : Json) :
    (∀ listPath items, list listPath items ∈ (annotate path json).preorder →
      ∀ (i j : Nat) (a b : Node), items[i]? = some a → items[j]? = some b → i ≠ j →
        a.label = b.label → a.label.names = [] ∧ a.DeclaresNothing ∧ b.DeclaresNothing) ∧
    ∀ (parent : Path) (i j : Nat),
      typeName (parent.position i) = typeName (parent.position j) → i = j := by
  refine ⟨fun listPath items hp i j a b hi hj hne hl => ?_, fun parent i j h => ?_⟩
  · obtain ⟨values, rfl⟩ := exists_values hp
    have hnames := (namesApart_annotateItems listPath 0 values).names_eq_nil_at hi hj hne hl
    exact ⟨hnames, declaresNothing_of_names hnames, declaresNothing_of_names (hl ▸ hnames)⟩
  · exact position_eq_of_typeName_eq (m := 0) (n := 0) h

/-- The items of `[["a"], ["b"]]` share the label `List String`. -/
theorem items_apart_strings :
    (annotate ((Path.ofRoot "Root").position 0) (.list [.string "a"])).label.names = [] ∧
      (annotate ((Path.ofRoot "Root").position 0) (.list [.string "a"])).DeclaresNothing ∧
      (annotate ((Path.ofRoot "Root").position 1) (.list [.string "b"])).DeclaresNothing ∧
      typeName ((Path.ofRoot "Root").position 16) ≠ typeName ((Path.ofRoot "Root").position 17) := by
  obtain ⟨hitems, hnames⟩ :=
    items_apart (.ofRoot "Root") (.list [.list [.string "a"], .list [.string "b"]])
  obtain ⟨hlabel, hfirst, hsecond⟩ :=
    hitems _ _ (mem_preorder_self _) 0 1 _ _ rfl rfl (by decide) rfl
  exact ⟨hlabel, hfirst, hsecond, mt (hnames _ 16 17) (by decide)⟩

theorem shapes_rest_eq_nil {path : Path} {json : Json} {values : List Json}
    (h : isMixed (annotateItems path 0 (json :: values)) = false) :
    (annotateItems path 1 values).flatMap shapes = [] := by
  rw [List.flatMap_eq_nil_iff]
  intro item hi
  have hl : (annotate (path.position 0) json).label = item.label :=
    label_eq_of_not_mixed h List.mem_cons_self (List.mem_cons_of_mem _ hi)
  have apart := List.pairwise_cons.mp (namesApart_annotateItems path 0 (json :: values))
  exact shapes_eq_nil item (hl ▸ apart.1 item hi hl)

theorem visited_annotate (path : Path) (json : Json) :
    (annotate path json).visited = (annotate path json).shapes := by
  induction json using Json.induct generalizing path with
  | list items ih =>
    cases items with
    | nil => rfl
    | cons first rest =>
      rw [annotate]
      cases hm : isMixed (annotateItems path 0 (first :: rest)) with
      | true =>
        rw [visited_mixed path hm, shapes_mixed path hm]
        congr 1
        refine List.flatMap_congr fun item hi => ?_
        obtain ⟨i, json, hj, rfl⟩ := mem_annotateItems hi
        exact descend_eq_shapes (ih json hj _)
      | false =>
        -- The items that the walk leaves out have nothing to declare.
        rw [shapes_uniform path hm, annotateItems, visited_uniform path hm,
          descend_eq_shapes (ih first List.mem_cons_self _), List.flatMap_cons,
          shapes_rest_eq_nil hm, List.append_nil]
  | object members ih =>
    rw [annotate, visited_object, shapes_object]
    congr 1
    refine List.flatMap_congr fun m hm => ?_
    obtain ⟨member, hj, rfl⟩ := mem_annotateMembers (Members.mem_sort.mp hm)
    exact descend_eq_shapes (ih member hj _)
  | _ => rfl

/-- Every visitor visits exactly the objects and the mixed lists of an annotated
document, each once and in the order of the tree. -/
theorem walk_annotate {m : Type → Type} [Monad m] [LawfulMonad m] (visit : Shape → m Unit)
    (path : Path) (json : Json) :
    (annotate path json).walk visit =
      ((annotate path json).preorder.filterMap shape?).forM visit := by
  rw [walk_eq_forM, visited_annotate, shapes]

/-- Collecting the names of the shapes of `[{"a": []}, "x", [[], []]]`. -/
theorem walk_annotate_names :
    (((annotate (.ofRoot Path.defaultRoot) (.list [.object [("a", .list [])], .string "x",
      .list [.list [], .list []]])).walk fun shape =>
        (modify (· ++ [shape.name]) : StateM (List String) Unit)).run []).2 =
      ["Root", "Object"] := by
  rw [walk_annotate]
  rfl

end ElmCodec.Node
