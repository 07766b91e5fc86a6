import ElmCodec.Proofs.PlainNames

/-!
# Documents that no name gets refused

The nodes of a document with plain keys and short lists have plain paths, each
its own, and what a node declares is its name with a number at most. So the
names of such a document differ from each other and from those that Elm has in
scope, and the conversion goes through.
-/

namespace ElmCodec

inductive Json.ListsWithin (limit : Nat) : Json → Prop
  | null : ListsWithin limit .null
  | boolean : ListsWithin limit (.boolean value)
  | number : ListsWithin limit (.number value)
  | string : ListsWithin limit (.string text)
  | list : items.length ≤ limit → (∀ item ∈ items, ListsWithin limit item) →
    ListsWithin limit (.list items)
  | object : (∀ m ∈ members, ListsWithin limit m.2) → ListsWithin limit (.object members)

theorem Json.ListsWithin.of_list (h : ListsWithin limit (.list items)) :
    items.length ≤ limit ∧ ∀ item ∈ items, item.ListsWithin limit := by
  cases h with
  | list hl hi => exact ⟨hl, hi⟩

theorem Json.ListsWithin.of_object (h : ListsWithin limit (.object members)) :
    ∀ m ∈ members, m.2.ListsWithin limit := by
  cases h with
  | object h => exact h

-- ---------------------------------------------------------------------------
-- What one shape declares
-- ---------------------------------------------------------------------------

theorem Shape.nodup_declares_ofItems (path : Path) (items : List Node) :
    (ofItems path items).declares.Nodup := by
  rw [declares_eq, List.nodup_cons]
  constructor
  · intro hm
    obtain ⟨number, -, he⟩ := mem_constructors_ofItems.mp hm
    have hname : typeName path ++ "" = typeName path ++ toString number := by
      rw [String.append_empty]
      exact he
    have hempty := congrArg String.toList ((String.append_right_inj _).mp hname)
    simp [toString] at hempty
  · rw [ofItems, constructors, constructors_variants]
    refine List.Nodup.map (fun m n h => ?_) List.nodup_range'
    have h : Nat.toDigits 10 m = Nat.toDigits 10 n := by
      simpa [toString] using congrArg String.toList ((String.append_right_inj _).mp h)
    rw [← Nat.ofDigitChars_ten_toDigits (n := m), h, Nat.ofDigitChars_ten_toDigits]

theorem Node.nodup_declares {node : Node} (h : node.shape? = some shape) :
    shape.declares.Nodup := by
  cases node with
  | scalar path value => simp [shape?] at h
  | list path items =>
    rw [(ofItems_of_shape? h).2]
    exact Shape.nodup_declares_ofItems path items
  | object path members =>
    obtain rfl := Option.some.inj h
    exact List.nodup_singleton _

theorem Shape.identifiers_ofMembers {path : Path} {members : List (String × Node)}
    (h : ∀ m ∈ members, IsPlainKey m.1) :
    (ofMembers path members).identifiers = (Members.sort members).map (·.1) := by
  simp only [ofMembers, identifiers, List.map_map]
  exact List.map_congr_left fun m hm => fieldName_of_isPlainKey (h m (Members.mem_sort.mp hm))

-- ---------------------------------------------------------------------------
-- A document with plain keys and short lists
-- ---------------------------------------------------------------------------

/-- A value without conflicts, at a plain path. -/
structure PlainPart (path : Path) (json : Json) : Prop where
  path : path.IsPlain
  distinct : json.Distinct
  keys : json.KeysAre IsPlainKey
  lists : json.ListsWithin positionNouns.length

namespace PlainPart

variable {path : Path} {json : Json}

theorem item {items : List Json} (hi : items[i]? = some json)
    (h : PlainPart path (.list items)) : PlainPart (path.position i) json := by
  have hm := List.mem_of_getElem? hi
  obtain ⟨hlength, hlists⟩ := h.lists.of_list
  have hlt : i < positionNouns.length :=
    Nat.lt_of_lt_of_le (List.getElem?_eq_some_iff.mp hi).1 hlength
  exact ⟨h.path.child hlt, h.distinct.of_list json hm, h.keys.of_list json hm, hlists json hm⟩

theorem member {members : List (String × Json)} (hm : m ∈ members)
    (h : PlainPart path (.object members)) : PlainPart (path.field m.1) m.2 := by
  obtain ⟨hk, hkeys⟩ := h.keys.of_object m hm
  refine ⟨?_, h.distinct.of_object m hm, hkeys, h.lists.of_object m hm⟩
  rw [Path.field, if_neg hk.ne_empty]
  exact h.path.child hk

theorem exists_of_mem {part : Node} (h : PlainPart path json)
    (hp : part ∈ (Node.annotate path json).preorder) :
    ∃ p value, part = .annotate p value ∧ PlainPart p value :=
  Node.exists_of_mem_preorder (fun _ _ _ _ hi h => h.item hi) (fun _ _ _ hm h => h.member hm) h hp

theorem isPlain_path {part : Node} (h : PlainPart path json)
    (hp : part ∈ (Node.annotate path json).preorder) : part.path.IsPlain := by
  obtain ⟨p, value, rfl, hv⟩ := h.exists_of_mem hp
  exact (Node.path_annotate p value).symm ▸ hv.path

theorem exists_of_declares (h : PlainPart path json)
    (hn : name ∈ (Node.annotate path json).shapes.flatMap Shape.declares) :
    ∃ p : Path, p.IsPlain ∧ ∃ digits, (∀ c ∈ digits.toList, c.isDigit = true) ∧
      name = typeName p ++ digits := by
  obtain ⟨shape, hs, hn⟩ := List.mem_flatMap.mp hn
  obtain ⟨part, hp, hs⟩ := List.mem_filterMap.mp hs
  exact ⟨part.path, h.isPlain_path hp, Node.exists_append_of_declares hs hn⟩

theorem nodup_declares (h : PlainPart path json) :
    ((Node.annotate path json).shapes.flatMap Shape.declares).Nodup := by
  have hpaths : ((Node.annotate path json).preorder.map Node.path).Nodup :=
    Node.nodup_paths h.distinct (h.keys.mono fun _ hk => hk.ne_empty)
  refine List.nodup_flatMap.mpr ⟨fun shape hs => ?_, ?_⟩
  · obtain ⟨part, -, hs⟩ := List.mem_filterMap.mp hs
    exact Node.nodup_declares hs
  · -- A name that two nodes declare would give them one path.
    refine List.pairwise_filterMap.mpr ((List.pairwise_map.mp hpaths).imp_of_mem ?_)
    intro first second hf hs hne shape hshape other hother
    refine List.disjoint_left.mpr fun name hn ho => ?_
    obtain ⟨digits, hd, rfl⟩ := Node.exists_append_of_declares hshape hn
    obtain ⟨others, hos, he⟩ := Node.exists_append_of_declares hother ho
    exact hne (Path.eq_of_typeName_append_eq (h.isPlain_path hf) (h.isPlain_path hs) hd hos he)

theorem nodup_identifiers (h : PlainPart path json)
    (hs : shape ∈ (Node.annotate path json).shapes) : shape.identifiers.Nodup := by
  obtain ⟨part, hp, hs⟩ := List.mem_filterMap.mp hs
  obtain ⟨p, value, rfl, hv⟩ := h.exists_of_mem hp
  cases value with
  | object members =>
    obtain rfl := Option.some.inj hs
    have hkeys : ∀ m ∈ Node.annotateMembers p members, IsPlainKey m.1 := by
      intro m hm
      obtain ⟨member, hmem, rfl⟩ := Node.mem_annotateMembers hm
      exact (hv.keys.of_object member hmem).1
    rw [Shape.identifiers_ofMembers hkeys]
    refine Members.nodup_keys_sort ?_
    rw [Node.annotateMembers_eq_map, List.map_map]
    exact hv.distinct.nodup_keys
  | list items =>
    rw [(Node.ofItems_of_shape? hs).2]
    exact List.nodup_nil
  | _ => simp [Node.annotate, Node.shape?] at hs

theorem checked (h : PlainPart path json) : Checked (.annotate path json) where
  declarable name hn := by
    obtain ⟨p, hp, digits, hd, rfl⟩ := h.exists_of_declares hn
    exact ⟨hp.isTypeName hd, fun hm => hp.typeName_append_ne (List.mem_cons_of_mem _ hm) digits rfl⟩
  nodup := h.nodup_declares
  document _ hn := by
    obtain ⟨p, hp, digits, -, he⟩ := h.exists_of_declares hn
    exact hp.typeName_append_ne List.mem_cons_self digits he.symm
  identifiers _ hs := h.nodup_identifiers hs

end PlainPart

-- ---------------------------------------------------------------------------
-- Conversion
-- ---------------------------------------------------------------------------

/-- A document whose keys are a `k` and lower-case letters, and whose lists are no longer
than the nouns, converts. Its types and constructors are all called differently, none as
the prelude's or as the document's codec, and no record has two fields of one name. -/
theorem Artifacts.ofJson_plain_keys (hd : json.Distinct) (hk : json.KeysAre IsPlainKey)
    (hl : json.ListsWithin positionNouns.length) (hr : options.root = Path.defaultRoot) :
    ofJson options json = .ok (Program.ofJson options json).artifacts ∧
      ((Node.annotate (.ofRoot options.root) json).shapes.flatMap Shape.declares).Nodup ∧
      (∀ name ∈ (Node.annotate (.ofRoot options.root) json).shapes.flatMap Shape.declares,
        name ∉ preludeNames ∧ name ≠ documentName) ∧
      ∀ shape ∈ (Node.annotate (.ofRoot options.root) json).shapes, shape.identifiers.Nodup := by
  have h : PlainPart (.ofRoot options.root) json := ⟨⟨hr, nofun⟩, hd, hk, hl⟩
  refine ⟨ofJson_of_checked h.checked, h.nodup_declares, fun name hn => ⟨?_, ?_⟩,
    fun shape hs => h.nodup_identifiers hs⟩
  · exact (h.checked.declarable name hn).2
  · obtain ⟨p, hp, digits, -, rfl⟩ := h.exists_of_declares hn
    exact hp.typeName_append_ne List.mem_cons_self digits

/-- `{"k": [null, {}, {}], "kthing": {}}` -/
def plainDocument : Json :=
  .object [("k", .list [.null, .object [], .object []]), ("kthing", .object [])]

/-- The third item of `k` and the member `kthing` get names that differ in one capital. -/
theorem Artifacts.ofJson_plain_keys_capitals :
    plainDocument.Distinct ∧ plainDocument.KeysAre IsPlainKey ∧
      plainDocument.ListsWithin positionNouns.length ∧
      (Node.annotate (.ofRoot Path.defaultRoot) plainDocument).shapes.flatMap Shape.declares =
        ["Root", "K", "K0", "K1", "K2", "KEntity", "KThing", "Kthing"] ∧
      ofJson {} plainDocument = .ok (Program.ofJson {} plainDocument).artifacts := by
  have hempty : (Json.object []).Distinct := .object .nil nofun
  have hd : plainDocument.Distinct :=
    .object (by decide) (by simpa using ⟨.list (by simpa using ⟨.null, hempty⟩), hempty⟩)
  have hkey : IsPlainKey "k" := ⟨[], rfl, nofun⟩
  have hthing : IsPlainKey "kthing" := ⟨"thing".toList, rfl, List.all_eq_true.mp rfl⟩
  have hk : plainDocument.KeysAre IsPlainKey :=
    .object (by simpa using ⟨hkey, hthing⟩)
      (by simpa using ⟨.list (by simpa using ⟨.null, .object nofun nofun⟩), .object nofun nofun⟩)
  have hl : plainDocument.ListsWithin positionNouns.length :=
    .object (by simpa using
      ⟨.list (by decide) (by simpa using ⟨.null, .object nofun⟩), .object nofun⟩)
  exact ⟨hd, hk, hl, by decide +kernel, (ofJson_plain_keys hd hk hl rfl).1⟩

end ElmCodec
