import ElmCodec.Proofs.Reading
import ElmCodec.Proofs.Traversal

/-!
# Locations of nodes

A location leads from a value to one of its parts, a step for each key and each
position. Annotation changes nothing but the kind of numbers, so the node of a
part stands at the location of the part. Its path is that of the document with
the steps of the location added, less those of empty keys. So with distinct keys a path
belongs to one node, as long as no key is empty.
-/

namespace ElmCodec

-- ---------------------------------------------------------------------------
-- Parts of values
-- ---------------------------------------------------------------------------

namespace Json

inductive KeysAre (P : String → Prop) : Json → Prop
  | null : KeysAre P .null
  | boolean : KeysAre P (.boolean value)
  | number : KeysAre P (.number value)
  | string : KeysAre P (.string text)
  | list : (∀ item ∈ items, KeysAre P item) → KeysAre P (.list items)
  | object : (∀ m ∈ members, P m.1) → (∀ m ∈ members, KeysAre P m.2) → KeysAre P (.object members)

theorem KeysAre.of_list (h : KeysAre P (.list items)) : ∀ item ∈ items, item.KeysAre P := by
  cases h with
  | list h => exact h

theorem KeysAre.of_object (h : KeysAre P (.object members)) :
    ∀ m ∈ members, P m.1 ∧ m.2.KeysAre P := by
  cases h with
  | object hk hv => exact fun m hm => ⟨hk m hm, hv m hm⟩

theorem KeysAre.mono {json : Json} (hpq : ∀ key, P key → Q key) (h : json.KeysAre P) :
    json.KeysAre Q := by
  induction h with
  | list _ ih => exact .list ih
  | object hk _ ih => exact .object (fun m hm => hpq m.1 (hk m hm)) ih
  | null => exact .null
  | boolean => exact .boolean
  | number => exact .number
  | string => exact .string

def child? : Json → Segment → Option Json
  | list items, .position index => items[index]?
  | _, .position _ => none
  | json, .field key => json.member? key

def part? (json : Json) : List Segment → Option Json
  | [] => some json
  | segment :: rest => (json.child? segment).bind (·.part? rest)

theorem part?_concat (json : Json) (location : List Segment) (segment : Segment) :
    json.part? (location ++ [segment]) = (json.part? location).bind (·.child? segment) := by
  induction location generalizing json with
  | nil => simp [part?]
  | cons first rest ih => simp [part?, ih, Option.bind_assoc]

end Json

-- ---------------------------------------------------------------------------
-- Paths of locations
-- ---------------------------------------------------------------------------

def Path.append (path : Path) (location : List Segment) : Path :=
  { path with segments := path.segments ++ location }

theorem Path.append_concat (path : Path) (location : List Segment) (segment : Segment) :
    path.append (location ++ [segment]) = (path.append location).child segment := by
  simp [append, child]

theorem Path.append_inj {path : Path} (h : path.append first = path.append second) :
    first = second := by
  simpa [append] using h

/-- What a path keeps of a location: all of its steps but empty keys. -/
def Path.trace (location : List Segment) : List Segment := location.filter (· ≠ .field "")

def Path.step (path : Path) : Segment → Path
  | .field key => path.field key
  | .position index => path.position index

@[simp] theorem Path.append_trace_nil (path : Path) : path.append (trace []) = path := by
  simp [append, trace]

theorem Path.append_trace_cons (path : Path) (segment : Segment) (location : List Segment) :
    path.append (trace (segment :: location)) = (path.step segment).append (trace location) := by
  cases segment with
  | field key =>
    by_cases hk : key = ""
    · simp [trace, step, field, hk]
    · simp [trace, step, field, hk, append, child]
  | position index => simp [trace, step, position, append, child]

theorem Path.append_trace_concat (path : Path) (location : List Segment) (segment : Segment) :
    path.append (trace (location ++ [segment])) = (path.append (trace location)).step segment := by
  induction location generalizing path with
  | nil => rw [List.nil_append, append_trace_cons, append_trace_nil, append_trace_nil]
  | cons first rest ih => rw [List.cons_append, append_trace_cons, append_trace_cons, ih]

theorem Json.KeysAre.child {json : Json} {segment : Segment} (hk : json.KeysAre (· ≠ ""))
    (hc : json.child? segment = some part) : segment ≠ .field "" ∧ part.KeysAre (· ≠ "") := by
  cases json with
  | list items =>
    cases segment with
    | field key => cases hc
    | position index => exact ⟨by simp, hk.of_list part (List.mem_of_getElem? hc)⟩
  | object members =>
    cases segment with
    | field key =>
      obtain ⟨hne, hpart⟩ := hk.of_object _ (Members.mem_of_lookup hc)
      exact ⟨by simpa using hne, hpart⟩
    | position index => cases hc
  | _ => cases segment <;> cases hc

theorem Json.KeysAre.trace_eq {json : Json} (hk : json.KeysAre (· ≠ ""))
    (h : json.part? location = some part) : Path.trace location = location := by
  induction location generalizing json with
  | nil => rfl
  | cons segment rest ih =>
    obtain ⟨child, hc, hr⟩ := Option.bind_eq_some_iff.mp h
    obtain ⟨hne, hchild⟩ := hk.child hc
    have hrest := ih hchild hr
    simpa [Path.trace, hne] using hrest

/-- A part of a document, with the path of its location. -/
structure Located (path : Path) (json : Json) (partPath : Path) (part : Json) : Prop where
  distinct : part.Distinct
  location : ∃ location, json.part? location = some part ∧
    partPath = path.append (Path.trace location)

namespace Located

variable {path partPath : Path} {json : Json}

theorem whole (hd : json.Distinct) : Located path json path json :=
  ⟨hd, [], rfl, (path.append_trace_nil).symm⟩

theorem child {value : Json} {segment : Segment} (hd : part.Distinct)
    (hc : value.child? segment = some part) (h : Located path json partPath value) :
    Located path json (partPath.step segment) part := by
  obtain ⟨-, location, hl, rfl⟩ := h
  refine ⟨hd, location ++ [segment], ?_, (path.append_trace_concat location segment).symm⟩
  rw [Json.part?_concat, hl]
  exact hc

theorem item (hi : items[i]? = some part) (h : Located path json partPath (.list items)) :
    Located path json (partPath.position i) part := by
  have hc : (Json.list items).child? (.position i) = some part := hi
  exact h.child (h.distinct.of_list part (List.mem_of_getElem? hi)) hc

theorem member (hm : m ∈ members) (h : Located path json partPath (.object members)) :
    Located path json (partPath.field m.1) m.2 := by
  have hc : (Json.object members).child? (.field m.1) = some m.2 :=
    Members.lookup_of_mem h.distinct.nodup_keys hm
  exact h.child (h.distinct.of_object m hm) hc

end Located

-- ---------------------------------------------------------------------------
-- Nodes at locations
-- ---------------------------------------------------------------------------

namespace Node

@[simp] theorem path_annotate (path : Path) (json : Json) : (annotate path json).path = path := by
  cases json <;> rfl

variable {path : Path} {json : Json}

theorem path_item (hl : list listPath items ∈ (annotate path json).preorder)
    (hi : items[i]? = some item) : item.path = listPath.position i := by
  obtain ⟨values, rfl⟩ := exists_values hl
  rw [getElem?_annotateItems, Option.map_eq_some_iff] at hi
  obtain ⟨value, -, rfl⟩ := hi
  exact path_annotate _ value

def child? : Node → Segment → Option Node
  | list _ items, .position index => items[index]?
  | object _ members, .field key => members.lookup key
  | _, _ => none

def part? (node : Node) : List Segment → Option Node
  | [] => some node
  | segment :: rest => (node.child? segment).bind (·.part? rest)

theorem lookup_annotateMembers (path : Path) (members : List (String × Json)) (key : String) :
    (annotateMembers path members).lookup key =
      (members.lookup key).map (annotate (path.field key)) := by
  induction members with
  | nil => rfl
  | cons member rest ih =>
    obtain ⟨other, value⟩ := member
    rw [annotateMembers, Members.lookup_cons_eq_ite, Members.lookup_cons_eq_ite, ih]
    split
    · rename_i h
      rw [h]
      rfl
    · rfl

theorem child?_annotate (path : Path) (json : Json) (segment : Segment) :
    (annotate path json).child? segment =
      (json.child? segment).map (annotate (path.step segment)) := by
  cases json with
  | list items =>
    cases segment with
    | field key => rfl
    | position index => exact getElem?_annotateItems path items index
  | object members =>
    cases segment with
    | field key => exact lookup_annotateMembers path members key
    | position index => rfl
  | _ => cases segment <;> rfl

theorem part?_annotate (path : Path) (json : Json) (location : List Segment) :
    (annotate path json).part? location =
      (json.part? location).map (annotate (path.append (Path.trace location))) := by
  induction location generalizing path json with
  | nil => simp [part?, Json.part?]
  | cons segment rest ih =>
    rw [part?, Json.part?, child?_annotate, Path.append_trace_cons]
    cases json.child? segment with
    | none => rfl
    | some child => exact ih (path.step segment) child

theorem exists_of_part? (h : (annotate path json).part? location = some part) :
    ∃ value, json.part? location = some value ∧
      part = annotate (path.append (Path.trace location)) value := by
  rw [part?_annotate, Option.map_eq_some_iff] at h
  obtain ⟨value, hv, rfl⟩ := h
  exact ⟨value, hv, rfl⟩

theorem mem_preorder_of_child? {node : Node} {segment : Segment}
    (hc : node.child? segment = some child) (h : part ∈ child.preorder) :
    part ∈ node.preorder := by
  cases node with
  | scalar path value => cases segment <;> cases hc
  | list path items =>
    cases segment with
    | field key => cases hc
    | position index => exact mem_preorder_list path (List.mem_of_getElem? hc) h
  | object path members =>
    cases segment with
    | field key => exact mem_preorder_object path (Members.mem_of_lookup hc) h
    | position index => cases hc

theorem mem_preorder_of_part? {node : Node} (h : node.part? location = some part) :
    part ∈ node.preorder := by
  induction location generalizing node with
  | nil => exact Option.some.inj h ▸ mem_preorder_self node
  | cons segment rest ih =>
    obtain ⟨child, hc, hr⟩ := Option.bind_eq_some_iff.mp h
    exact mem_preorder_of_child? hc (ih hr)

theorem exists_location (hd : json.Distinct) (h : part ∈ (annotate path json).preorder) :
    ∃ location, (annotate path json).part? location = some part := by
  obtain ⟨_, value, rfl, hv⟩ := exists_of_mem_preorder (P := Located path json)
    (fun _ _ _ _ hi h => h.item hi) (fun _ _ _ hm h => h.member hm) (.whole hd) h
  obtain ⟨location, hl, rfl⟩ := hv.location
  exact ⟨location, by rw [part?_annotate, hl]; rfl⟩

/-- The nodes of an annotated document are those of the parts of the value, each at
the path of its location. -/
theorem exists_part (hd : json.Distinct) (hk : json.KeysAre (· ≠ ""))
    (h : part ∈ (annotate path json).preorder) :
    ∃ location value, json.part? location = some value ∧
      part = annotate (path.append location) value := by
  obtain ⟨location, hl⟩ := exists_location hd h
  obtain ⟨value, hv, rfl⟩ := exists_of_part? hl
  exact ⟨location, value, hv, by rw [hk.trace_eq hv]⟩

theorem exists_mem_preorder_of_part? (path : Path) {location : List Segment} {value : Json}
    (h : json.part? location = some value) :
    ∃ partPath, annotate partPath value ∈ (annotate path json).preorder :=
  ⟨_, mem_preorder_of_part? (by rw [part?_annotate, h]; rfl)⟩

-- ---------------------------------------------------------------------------
-- Paths without empty keys
-- ---------------------------------------------------------------------------

theorem eq_of_path_eq (hd : json.Distinct) (hk : json.KeysAre (· ≠ ""))
    (hf : first ∈ (annotate path json).preorder) (hs : second ∈ (annotate path json).preorder)
    (h : first.path = second.path) : first = second := by
  obtain ⟨location, value, hv, rfl⟩ := exists_part hd hk hf
  obtain ⟨other, _, ho, rfl⟩ := exists_part hd hk hs
  simp only [path_annotate] at h
  obtain rfl := Path.append_inj h
  rw [hv] at ho
  rw [Option.some.inj ho]

theorem getElem?_of_path_eq (hd : json.Distinct) (hk : json.KeysAre (· ≠ ""))
    (hl : list listPath items ∈ (annotate path json).preorder)
    (hp : part ∈ (annotate path json).preorder) (h : part.path = listPath.position i) :
    items[i]? = some part := by
  obtain ⟨location, value, hv, he⟩ := exists_part hd hk hl
  obtain ⟨other, inner, ho, rfl⟩ := exists_part hd hk hp
  obtain ⟨values, rfl, rfl, rfl⟩ := exists_list_of_annotate he.symm
  rw [path_annotate, Path.position, ← Path.append_concat] at h
  obtain rfl := Path.append_inj h
  have hi : values[i]? = some inner := by
    simpa [Json.part?_concat, hv, Json.child?] using ho
  rw [getElem?_annotateItems, hi, Path.append_concat]
  rfl

theorem segments_start (h : part ∈ (annotate path json).preorder) :
    path.segments <+: part.path.segments := by
  obtain ⟨p, value, rfl, hp⟩ := exists_of_mem_preorder
    (P := fun p _ => path.segments <+: p.segments)
    (fun p _ i _ _ h => h.trans (List.prefix_append _ _))
    (fun p _ m _ h => by
      unfold Path.field
      split
      · exact h
      · exact h.trans (List.prefix_append _ _))
    (List.prefix_refl _) h
  exact (path_annotate p value).symm ▸ hp

theorem disjoint_paths {first second : Json} {s t : Segment} (hne : s ≠ t) :
    ((annotate (path.child s) first).preorder.map Node.path).Disjoint
      ((annotate (path.child t) second).preorder.map Node.path) := by
  rw [List.disjoint_left]
  intro p hp hq
  obtain ⟨a, ha, rfl⟩ := List.mem_map.mp hp
  obtain ⟨b, hb, he⟩ := List.mem_map.mp hq
  have ht := segments_start hb
  rw [he] at ht
  have h := List.prefix_of_prefix_length_le (segments_start ha) ht (by simp [Path.child])
  exact hne (by simpa [Path.child] using h.eq_of_length (by simp [Path.child]))

theorem path_not_mem_below {s : Segment} :
    path ∉ (annotate (path.child s) json).preorder.map Node.path := by
  intro hm
  obtain ⟨part, hp, he⟩ := List.mem_map.mp hm
  have h := (segments_start hp).length_le
  rw [he] at h
  simp only [Path.child, List.length_append, List.length_singleton] at h
  omega

/-- The nodes of a document have one path each. -/
theorem nodup_paths (hd : json.Distinct) (hk : json.KeysAre (· ≠ "")) :
    ((annotate path json).preorder.map Node.path).Nodup := by
  induction json using Json.induct generalizing path with
  | list items ih =>
    rw [annotate, preorder_list, List.map_cons, List.map_flatMap, List.nodup_cons]
    refine ⟨fun hm => ?_, List.nodup_flatMap.mpr ⟨fun item hi => ?_, ?_⟩⟩
    · obtain ⟨item, hi, hm⟩ := List.mem_flatMap.mp hm
      obtain ⟨i, value, -, rfl⟩ := mem_annotateItems hi
      exact path_not_mem_below hm
    · obtain ⟨i, value, hv, rfl⟩ := mem_annotateItems hi
      exact ih value hv (hd.of_list value hv) (hk.of_list value hv)
    · rw [annotateItems_eq_mapIdx, List.pairwise_iff_getElem]
      intro i j hi hj hij
      rw [List.getElem_mapIdx, List.getElem_mapIdx]
      exact disjoint_paths (by simpa using Nat.ne_of_lt hij)
  | object members ih =>
    -- A member under an empty key would have the path of the object.
    have hkeys : ∀ m ∈ members, ∀ path : Path, path.field m.1 = path.child (.field m.1) :=
      fun m hm path => if_neg (hk.of_object m hm).1
    rw [annotate, preorder_object, annotateMembers_eq_map, List.map_cons, List.map_flatMap,
      Members.sort_map fun m : String × Json => annotate (path.field m.1) m.2, List.flatMap_map,
      List.nodup_cons]
    refine ⟨fun hm => ?_, List.nodup_flatMap.mpr ⟨fun m hm => ?_, ?_⟩⟩
    · obtain ⟨m, hm, hp⟩ := List.mem_flatMap.mp hm
      rw [hkeys m (Members.mem_sort.mp hm)] at hp
      exact path_not_mem_below hp
    · have hm := Members.mem_sort.mp hm
      exact ih m hm (hd.of_object m hm) (hk.of_object m hm).2
    · have hnodup := Members.nodup_keys_sort hd.nodup_keys
      refine (List.pairwise_map.mp hnodup).imp_of_mem fun {m n} hm hn hmn => ?_
      change ((annotate (path.field m.1) m.2).preorder.map Node.path).Disjoint
        ((annotate (path.field n.1) n.2).preorder.map Node.path)
      rw [hkeys m (Members.mem_sort.mp hm), hkeys n (Members.mem_sort.mp hn)]
      exact disjoint_paths (by simpa using hmn)
  | _ => simp [annotate, preorder]

end Node

-- ---------------------------------------------------------------------------
-- Annotation without paths
-- ---------------------------------------------------------------------------

def Scalar.erase : Scalar → Json
  | null => .null
  | boolean value => .boolean value
  | number value => .number (.double value)
  | string text => .string text

mutual

/-- The value of a node and of the nodes below it, without their paths. -/
def Node.erase : Node → Json
  | scalar _ value => value.erase
  | list _ items => .list (eraseItems items)
  | object _ members => .object (eraseMembers members)

def Node.eraseItems : List Node → List Json
  | [] => []
  | item :: rest => item.erase :: eraseItems rest

def Node.eraseMembers : List (String × Node) → List (String × Json)
  | [] => []
  | (key, node) :: rest => (key, node.erase) :: eraseMembers rest

end

mutual

def Json.withDoubles : Json → Json
  | number value => .number (.double value.toDouble)
  | list items => .list (withDoublesItems items)
  | object members => .object (withDoublesMembers members)
  | json => json

def Json.withDoublesItems : List Json → List Json
  | [] => []
  | item :: rest => item.withDoubles :: withDoublesItems rest

def Json.withDoublesMembers : List (String × Json) → List (String × Json)
  | [] => []
  | (key, value) :: rest => (key, value.withDoubles) :: withDoublesMembers rest

end

namespace Node

theorem eraseItems_annotateItems (path : Path) (index : Nat) {items : List Json}
    (h : ∀ item ∈ items, ∀ path, (annotate path item).erase = item.withDoubles) :
    eraseItems (annotateItems path index items) = Json.withDoublesItems items := by
  induction items generalizing index with
  | nil => rfl
  | cons item rest ih =>
    obtain ⟨hi, hr⟩ := List.forall_mem_cons.mp h
    rw [annotateItems, eraseItems, Json.withDoublesItems, hi, ih (index + 1) hr]

theorem eraseMembers_annotateMembers (path : Path) {members : List (String × Json)}
    (h : ∀ m ∈ members, ∀ path, (annotate path m.2).erase = m.2.withDoubles) :
    eraseMembers (annotateMembers path members) = Json.withDoublesMembers members := by
  induction members with
  | nil => rfl
  | cons member rest ih =>
    obtain ⟨hm, hr⟩ := List.forall_mem_cons.mp h
    rw [annotateMembers, eraseMembers, Json.withDoublesMembers, hm, ih hr]

theorem erase_annotate (path : Path) (json : Json) :
    (annotate path json).erase = json.withDoubles := by
  induction json using Json.induct generalizing path with
  | list items ih =>
    rw [annotate, erase, Json.withDoubles, eraseItems_annotateItems path 0 fun item hi path =>
      ih item hi path]
  | object members ih =>
    rw [annotate, erase, Json.withDoubles, eraseMembers_annotateMembers path fun m hm path =>
      ih m hm path]
  | _ => rfl

/-- A value comes back from its annotation with its members in order and its numbers as
doubles. The node at a location is that of the part there, and its path adds the steps of the
location but for empty keys. So two locations share a path exactly if they differ in empty
keys only, and with distinct keys that are not empty every node has a path of its own. -/
theorem annotate_faithful (path : Path) (json : Json) :
    (annotate path json).erase = json.withDoubles ∧
    (∀ location, (annotate path json).part? location =
      (json.part? location).map (annotate (path.append (Path.trace location)))) ∧
    (∀ first second a b, (annotate path json).part? first = some a →
      (annotate path json).part? second = some b →
        a.path = path.append (Path.trace first) ∧
        (a.path = b.path ↔ Path.trace first = Path.trace second) ∧
        (json.KeysAre (· ≠ "") → (a.path = b.path ↔ first = second))) ∧
    (json.Distinct →
      (∀ part, part ∈ (annotate path json).preorder ↔
        ∃ location, (annotate path json).part? location = some part) ∧
      (json.KeysAre (· ≠ "") → ((annotate path json).preorder.map Node.path).Nodup)) := by
  refine ⟨erase_annotate path json, part?_annotate path json, ?_, fun hd => ⟨fun part => ?_, ?_⟩⟩
  · intro first second a b hf hs
    obtain ⟨value, hv, rfl⟩ := exists_of_part? hf
    obtain ⟨other, ho, rfl⟩ := exists_of_part? hs
    rw [path_annotate, path_annotate]
    have hpaths : path.append (Path.trace first) = path.append (Path.trace second) ↔
        Path.trace first = Path.trace second := ⟨Path.append_inj, congrArg path.append⟩
    exact ⟨rfl, hpaths, fun hk => by rw [hpaths, hk.trace_eq hv, hk.trace_eq ho]⟩
  · exact ⟨exists_location hd, fun ⟨_, hl⟩ => mem_preorder_of_part? hl⟩
  · exact nodup_paths hd

/-- In `{"": {}}` the member has the path of the document; in `{"a": [null]}` all paths differ. -/
theorem annotate_faithful_keys :
    (∃ member, (annotate (.ofRoot "Root") (.object [("", .object [])])).part? [.field ""] =
      some member ∧ member.path = .ofRoot "Root") ∧
      ((annotate (.ofRoot "Root") (.object [("a", .list [.null])])).preorder.map path).Nodup := by
  obtain ⟨-, -, hshared, -⟩ := annotate_faithful (.ofRoot "Root") (.object [("", .object [])])
  obtain ⟨-, -, -, hnodup⟩ := annotate_faithful (.ofRoot "Root") (.object [("a", .list [.null])])
  have hdistinct : (Json.object [("a", .list [.null])]).Distinct :=
    .object (by simp) (by simpa using .list (by simpa using .null))
  have hkeys : (Json.object [("a", .list [.null])]).KeysAre (· ≠ "") :=
    .object (by simp) (by simpa using .list (by simpa using .null))
  obtain ⟨-, hpath, -⟩ := hshared [.field ""] [] _ _ rfl rfl
  exact ⟨⟨_, rfl, hpath.mpr rfl⟩, (hnodup hdistinct).2 hkeys⟩

end Node

end ElmCodec
