import ElmCodec.Proofs.Locations
import ElmCodec.Proofs.Programs
import Mathlib.Data.List.Flatten

/-!
# Constructors of a list and names of its items

The constructors of a mixed list are the list's name and a number. So is the
name of an item that comes after the nouns, unless the list is the document: a
number alone goes behind `Item`. A list below the root therefore keeps clear of
its items exactly as long as no declared item after the nouns has a position
that is also the number of a variant.
-/

namespace ElmCodec

-- ---------------------------------------------------------------------------
-- Keys
-- ---------------------------------------------------------------------------

/-- A `k` followed by lower-case letters. -/
def IsPlainKey (key : String) : Prop :=
  ∃ rest, key.toList = 'k' :: rest ∧ ∀ c ∈ rest, c.isLower = true

theorem titleCase_ne_nil {text : String} (ht : text.toList = c :: rest) (hc : c.isAlphanum = true)
    (hu : c.isUpper = false) : titleCase text ≠ [] := by
  simp [titleCase, ht, Word.split, Word.scan, hc, hu, Word.title, Word.capitalize]

theorem IsPlainKey.titleCase_ne_nil {key : String} (h : IsPlainKey key) : titleCase key ≠ [] := by
  obtain ⟨rest, hr, -⟩ := h
  exact ElmCodec.titleCase_ne_nil hr rfl rfl

theorem IsPlainKey.ne_empty {key : String} (h : IsPlainKey key) : key ≠ "" := by
  rintro rfl
  obtain ⟨rest, hr, -⟩ := h
  simp at hr

-- ---------------------------------------------------------------------------
-- Letters of a path
-- ---------------------------------------------------------------------------

def Path.letters (path : Path) : List Char :=
  path.segments.flatMap fun segment => titleCase segment.label

theorem Path.letters_position (path : Path) (index : Nat) :
    (path.position index).letters = path.letters ++ positionLetters index := by
  simp [letters, position, child, titleCase_position]

theorem Path.letters_field {path : Path} {key : String} (h : key ≠ "") :
    (path.field key).letters = path.letters ++ titleCase key := by
  simp [letters, field, child, h, Segment.label]

def Path.Lettered (path : Path) : Prop := path = .ofRoot defaultRoot ∨ path.letters ≠ []

theorem Path.Lettered.position (path : Path) (index : Nat) : (path.position index).Lettered := by
  refine .inr fun h => ?_
  rw [letters_position] at h
  exact positionLetters_ne_nil index (List.append_eq_nil_iff.mp h).2

theorem Path.Lettered.field (path : Path) {key : String} (hk : IsPlainKey key) :
    (path.field key).Lettered := by
  refine .inr fun h => ?_
  rw [letters_field hk.ne_empty] at h
  exact hk.titleCase_ne_nil (List.append_eq_nil_iff.mp h).2

theorem Path.isRoot_of_letters {path : Path} (h : path.letters ≠ []) : path.isRoot = false := by
  unfold letters at h
  unfold isRoot
  cases hs : path.segments with
  | nil => simp [hs] at h
  | cons segment rest => rfl

theorem typeName_of_letters {path : Path} (h : path.letters ≠ []) :
    typeName path = String.ofList (withItem path.letters) := by
  rw [typeName, Path.isRoot_of_letters h]
  rfl

theorem withItem_append {before : List Char} (h : before ≠ []) (after : List Char) :
    withItem (before ++ after) = withItem before ++ after := by
  cases before with
  | nil => exact absurd rfl h
  | cons c rest =>
    simp only [List.cons_append, withItem]
    split <;> simp

theorem typeName_position {path : Path} (h : path.letters ≠ []) (index : Nat) :
    typeName (path.position index) = typeName path ++ String.ofList (positionLetters index) := by
  have hp : (path.position index).letters ≠ [] := by
    rw [Path.letters_position]
    exact fun he => h (List.append_eq_nil_iff.mp he).1
  rw [typeName_of_letters hp, typeName_of_letters h, Path.letters_position, withItem_append h,
    String.ofList_append]

theorem length_le_of_digits (h : ∀ c ∈ positionLetters index, c.isDigit = true) :
    positionNouns.length ≤ index := by
  refine Nat.le_of_not_lt fun hi => ?_
  have letter : ∀ noun ∈ positionNouns, noun.toList.any fun c => !c.isDigit := by decide
  obtain ⟨c, hc, hd⟩ := List.any_eq_true.mp (letter _ (noun_mem hi))
  rw [← positionLetters_noun hi] at hc
  simp [h c hc] at hd

theorem le_of_positionLetters_append (h : positionLetters index ++ after = Nat.toDigits 10 number) :
    positionNouns.length ≤ index ∧ index ≤ number := by
  have digit : ∀ c ∈ positionLetters index, c.isDigit = true := fun c hc =>
    Nat.isDigit_of_mem_toDigits (by decide) (by decide) (h ▸ List.mem_append_left after hc)
  -- A noun has letters, so the position goes by its number.
  have hi := length_le_of_digits digit
  refine ⟨hi, ?_⟩
  calc index ≤ 10 ^ after.length * index + Nat.ofDigitChars 10 after 0 :=
        Nat.le_add_right_of_le (Nat.le_mul_of_pos_left index (Nat.pow_pos (by decide)))
    _ = Nat.ofDigitChars 10 (positionLetters index ++ after) 0 := by
        rw [Nat.ofDigitChars_append, positionLetters_number (Nat.not_lt.mpr hi),
          Nat.ofDigitChars_ten_toDigits, ← Nat.ofDigitChars_eq_ofDigitChars_zero]
    _ = number := by rw [h, Nat.ofDigitChars_ten_toDigits]

theorem typeName_root_position_append_ne (index : Nat) (before after : String) :
    typeName ((Path.ofRoot Path.defaultRoot).position index) ++ before ≠
      Path.defaultRoot ++ after := by
  have hname : typeName ((Path.ofRoot Path.defaultRoot).position index) =
      String.ofList (withItem (firstLetters index 0)) := typeName_firsts _ index 0
  rw [hname]
  intro h
  have h := congrArg (fun name => name.toList.head?) h
  by_cases hi : index < positionNouns.length
  · have start : ∀ noun ∈ positionNouns, (noun.toList.head?.any fun c => c != 'R') = true := by
      decide
    have hs := start _ (noun_mem hi)
    rw [withItem_firstLetters_noun hi, firstLetters, positionLetters_noun hi] at h
    cases hn : positionNouns[index].toList with
    | nil => simp [hn] at hs
    | cons c rest => simp_all [Path.defaultRoot]
  · rw [withItem_firstLetters_number hi] at h
    simp [Path.defaultRoot] at h

namespace Path.Lettered

variable {path : Path}

theorem typeName_number (hp : path.Lettered) (hr : path.isRoot = false)
    (hi : positionNouns.length ≤ index) :
    typeName (path.position index) = typeName path ++ toString index := by
  have hd : (toString index).toList = Nat.toDigits 10 index := by simp [toString]
  rcases hp with rfl | hp
  · exact absurd hr (by decide)
  · rw [typeName_position hp, positionLetters_number (Nat.not_lt.mpr hi), ← hd, String.ofList_toList]

theorem typeName_append_ne (hp : path.Lettered) (index : Nat) (after : String) :
    typeName (path.position index) ++ after ≠ typeName path := by
  rcases hp with rfl | hp
  · have hroot : typeName (.ofRoot defaultRoot) = defaultRoot ++ "" := by decide
    rw [hroot]
    exact typeName_root_position_append_ne index after ""
  · rw [typeName_position hp, String.append_assoc]
    intro h
    have h := congrArg String.length h
    have hpos := List.length_pos_of_ne_nil (positionLetters_ne_nil index)
    simp only [String.length_append, String.length_ofList] at h
    omega

/-- A name that starts like an item's is the list's name and a number only below the
root and after the nouns, and then the number is no smaller than the item's position. -/
theorem le_of_typeName_append (hp : path.Lettered)
    (h : typeName (path.position index) ++ after = typeName path ++ toString number) :
    path.isRoot = false ∧ positionNouns.length ≤ index ∧ index ≤ number := by
  have hd : (toString number).toList = Nat.toDigits 10 number := by simp [toString]
  rcases hp with rfl | hp
  · exact absurd h (typeName_root_position_append_ne index after (toString number))
  · rw [typeName_position hp, String.append_assoc, String.append_right_inj] at h
    have h := congrArg String.toList h
    rw [String.toList_append, String.toList_ofList, hd] at h
    exact ⟨Path.isRoot_of_letters hp, le_of_positionLetters_append h⟩

end Path.Lettered

-- ---------------------------------------------------------------------------
-- What a list and its items declare
-- ---------------------------------------------------------------------------

namespace Shape

def constructors : Shape → List String
  | record .. => []
  | sum _ _ variants => variants.map (·.constructor)

/-- No item of a list declares a name that is a constructor of the list. -/
def Avoids (sum : Shape) (items : List Node) : Prop :=
  ∀ item ∈ items, ∀ shape, item.shape? = some shape → shape.name ∉ sum.constructors

theorem declares_eq (shape : Shape) : shape.declares = shape.name :: shape.constructors := by
  cases shape <;> rfl

theorem constructors_variants (name : String) (index : Nat) (parts : List (Label × Node)) :
    (variants name index parts).map (·.constructor) =
      (List.range' index parts.length).map fun number => name ++ toString number := by
  induction parts generalizing index with
  | nil => rfl
  | cons part rest ih => simp [variants, ih, List.range'_succ]

theorem mem_constructors_ofItems {name : String} {path : Path} {items : List Node} :
    name ∈ (ofItems path items).constructors ↔
      ∃ number < (ofItems path items).constructors.length,
        name = typeName path ++ toString number := by
  simp only [ofItems, constructors, constructors_variants, List.length_map, List.length_range',
    List.mem_map, List.mem_range'_1]
  simp [eq_comm]

end Shape

namespace Node

theorem exists_append_of_declares {node : Node} (h : node.shape? = some shape)
    (hn : name ∈ shape.declares) :
    ∃ digits, (∀ c ∈ digits.toList, c.isDigit = true) ∧ name = typeName node.path ++ digits := by
  rcases List.mem_cons.mp (shape.declares_eq ▸ hn) with rfl | hn
  · exact ⟨"", by simp, by simp [(name_of_shape? h).1]⟩
  · cases node with
    | scalar path value => simp [shape?] at h
    | list path items =>
      rw [(ofItems_of_shape? h).2, Shape.mem_constructors_ofItems] at hn
      obtain ⟨number, -, rfl⟩ := hn
      refine ⟨toString number, fun c hc => ?_, rfl⟩
      have hc : c ∈ Nat.toDigits 10 number := by simpa [toString] using hc
      exact Nat.isDigit_of_mem_toDigits (by decide) (by decide) hc
    | object path members =>
      obtain rfl := Option.some.inj h
      simp [Shape.ofMembers, Shape.constructors] at hn

variable {path : Path} {items : List Node} {json : Json} {sum : Shape}

theorem name_mem_constructors_iff {item : Node} {shape : Shape} (hp : path.Lettered)
    (hi : item.path = path.position index) (hs : item.shape? = some shape) :
    shape.name ∈ (Shape.ofItems path items).constructors ↔
      path.isRoot = false ∧ positionNouns.length ≤ index ∧
        index < (Shape.ofItems path items).constructors.length := by
  rw [(name_of_shape? hs).1, hi, Shape.mem_constructors_ofItems]
  constructor
  · rintro ⟨number, hn, he⟩
    have he : typeName (path.position index) ++ "" = typeName path ++ toString number := by
      simpa using he
    obtain ⟨hr, hl, hle⟩ := hp.le_of_typeName_append he
    exact ⟨hr, hl, Nat.lt_of_le_of_lt hle hn⟩
  · rintro ⟨hr, hl, hn⟩
    exact ⟨index, hn, hp.typeName_number hr hl⟩

theorem lettered_of_plain_keys (hk : json.KeysAre IsPlainKey)
    (h : part ∈ (annotate (.ofRoot Path.defaultRoot) json).preorder) : part.path.Lettered := by
  obtain ⟨path, value, rfl, hp, -⟩ := exists_of_mem_preorder
    (P := fun path value => path.Lettered ∧ value.KeysAre IsPlainKey)
    (fun path _ i _ hi h => ⟨.position path i, h.2.of_list _ (List.mem_of_getElem? hi)⟩)
    (fun path _ m hm h => ⟨.field path (h.2.of_object m hm).1, (h.2.of_object m hm).2⟩)
    ⟨.inl rfl, hk⟩ h
  exact (path_annotate path value).symm ▸ hp

theorem avoids_iff (hk : json.KeysAre IsPlainKey)
    (hl : list path items ∈ (annotate (.ofRoot Path.defaultRoot) json).preorder)
    (hs : (list path items).shape? = some sum) :
    sum.Avoids items ↔ path.isRoot = true ∨ ∀ i item, items[i]? = some item →
      item.shape?.isSome = true → positionNouns.length ≤ i → sum.constructors.length ≤ i := by
  obtain ⟨-, rfl⟩ := ofItems_of_shape? hs
  have hp : path.Lettered := lettered_of_plain_keys hk hl
  constructor
  · intro h
    rw [or_iff_not_imp_left, Bool.not_eq_true]
    intro hr i item hi hd hn
    obtain ⟨shape, hd⟩ := Option.isSome_iff_exists.mp hd
    refine Nat.le_of_not_lt fun hlt => h item (List.mem_of_getElem? hi) shape hd ?_
    exact (name_mem_constructors_iff hp (path_item hl hi) hd).mpr ⟨hr, hn, hlt⟩
  · intro h item hm shape hd hc
    obtain ⟨i, hi⟩ := List.getElem?_of_mem hm
    obtain ⟨hr, hn, hlt⟩ := (name_mem_constructors_iff hp (path_item hl hi) hd).mp hc
    rcases h with h | h
    · simp [hr] at h
    · exact Nat.not_le_of_lt hlt (h i item hi (by simp [hd]) hn)

theorem avoids_of_nodup {root : Node} (h : (root.shapes.flatMap Shape.declares).Nodup)
    (hl : list path items ∈ root.preorder) (hs : (list path items).shape? = some sum) :
    sum.Avoids items := by
  intro item hi shape hd hc
  obtain ⟨hm, rfl⟩ := ofItems_of_shape? hs
  have hlist := h.sublist ((shapes_sublist root hl).flatMap Shape.declares)
  rw [shapes_mixed path hm, List.flatMap_cons, List.nodup_append] at hlist
  have hitem : shape ∈ items.flatMap shapes :=
    List.mem_flatMap.mpr ⟨item, hi, mem_shapes_self hd⟩
  refine hlist.2.2 shape.name ?_ shape.name (List.mem_flatMap.mpr ⟨shape, hitem, ?_⟩) rfl
  · exact Shape.declares_eq _ ▸ List.mem_cons_of_mem _ hc
  · exact shape.declares_eq ▸ List.mem_cons_self

theorem exists_of_declared {root : Node} (h : Declared root.shapes name path) :
    ∃ node ∈ root.preorder, node.path = path ∧
      ∃ shape, node.shape? = some shape ∧ name ∈ shape.declares := by
  obtain ⟨shape, hs, hpath, hname⟩ := h
  obtain ⟨node, hn, hs⟩ := List.mem_filterMap.mp hs
  exact ⟨node, hn, (name_of_shape? hs).2 ▸ hpath, shape, hs, hname⟩

theorem not_avoids_of_declared (hd : json.Distinct) (hk : json.KeysAre IsPlainKey)
    (hl : list path items ∈ (annotate (.ofRoot Path.defaultRoot) json).preorder)
    (hs : (list path items).shape? = some sum)
    (hf : Declared (annotate (.ofRoot Path.defaultRoot) json).shapes name path)
    (hi : Declared (annotate (.ofRoot Path.defaultRoot) json).shapes name (path.position i)) :
    ¬ sum.Avoids items := by
  have hne : json.KeysAre (· ≠ "") := hk.mono fun _ h => h.ne_empty
  have hp : path.Lettered := lettered_of_plain_keys hk hl
  have hname : name ∈ sum.declares := by
    obtain ⟨node, hn, hpath, shape, hshape, hname⟩ := exists_of_declared hf
    obtain rfl := eq_of_path_eq hd hne hn hl hpath
    exact Option.some.inj (hshape.symm.trans hs) ▸ hname
  obtain ⟨item, hn, hpath, shape, hshape, hitem⟩ := exists_of_declared hi
  obtain ⟨after, -, rfl⟩ := exists_append_of_declares hshape hitem
  obtain ⟨-, rfl⟩ := ofItems_of_shape? hs
  rw [hpath, Shape.declares_eq, List.mem_cons, Shape.mem_constructors_ofItems] at hname
  obtain he | ⟨number, hlt, he⟩ := hname
  · exact absurd he (hp.typeName_append_ne i after)
  · obtain ⟨hr, hnouns, hle⟩ := hp.le_of_typeName_append he
    have hget : items[i]? = some item := getElem?_of_path_eq hd hne hl hn hpath
    have hc := (name_mem_constructors_iff hp hpath hshape).mpr
      ⟨hr, hnouns, Nat.lt_of_le_of_lt hle hlt⟩
    exact fun h => h item (List.mem_of_getElem? hget) shape hshape hc

/-- A mixed list of a document with plain keys keeps clear of its items exactly if it is
the document, or if no declared item after the nouns has a position that numbers a
variant. A document with a list that does not is refused, and none is refused for a
name that a list which does has in common with one of its items. -/
theorem avoids_items_iff (hk : json.KeysAre IsPlainKey)
    (hl : list path items ∈ (annotate (.ofRoot Path.defaultRoot) json).preorder)
    (hs : (list path items).shape? = some sum) :
    (sum.Avoids items ↔ path.isRoot = true ∨ ∀ i item, items[i]? = some item →
      item.shape?.isSome = true → positionNouns.length ≤ i → sum.constructors.length ≤ i) ∧
    ∀ options : Options, options.root = Path.defaultRoot →
      (¬ sum.Avoids items → ∃ fault, Artifacts.ofJson options json = .error fault) ∧
      (json.Distinct → sum.Avoids items → ∀ name i,
        Artifacts.ofJson options json ≠ .error (.taken name (.node path) (path.position i)) ∧
        Artifacts.ofJson options json ≠ .error (.taken name (.node (path.position i)) path)) := by
  refine ⟨avoids_iff hk hl hs, fun options hr => ⟨fun hn => ?_, fun hd ha name i => ?_⟩⟩
  · cases hc : Artifacts.ofJson options json with
    | error fault => exact ⟨fault, rfl⟩
    | ok artifacts =>
      have hnodup := (Artifacts.ofJson_ok hc).1.nodup
      rw [hr] at hnodup
      exact absurd (avoids_of_nodup hnodup hl hs) hn
  · have shared : ∀ {first second : Path},
        Artifacts.ofJson options json = .error (.taken name (.node first) second) →
          Declared (annotate (.ofRoot Path.defaultRoot) json).shapes name first ∧
            Declared (annotate (.ofRoot Path.defaultRoot) json).shapes name second :=
      fun he => hr ▸ NameCheck.declared_of_taken (Artifacts.ofJson_error he)
    constructor
    · intro he
      obtain ⟨hf, hi⟩ := shared he
      exact not_avoids_of_declared hd hk hl hs hf hi ha
    · intro he
      obtain ⟨hi, hf⟩ := shared he
      exact not_avoids_of_declared hd hk hl hs hf hi ha

end Node

-- ---------------------------------------------------------------------------
-- A list as long as the nouns, and one item more
-- ---------------------------------------------------------------------------

def rowValues (last : Json) : List Json := List.replicate 16 (.object []) ++ [last]

/-- `{"kx": [{}, …, {}, last]}` -/
def row (last : Json) : Json := .object [("kx", .list (rowValues last))]

def rowPath : Path := ⟨Path.defaultRoot, [.field "kx"]⟩

def rowItems (last : Json) : List Node := Node.annotateItems rowPath 0 (rowValues last)

section
variable {last : Json}

theorem forall_mem_rowValues {P : Json → Prop} (he : P (.object [])) (hl : P last) :
    ∀ value ∈ rowValues last, P value := by
  intro value hv
  rcases List.mem_append.mp hv with hv | hv
  · exact List.eq_of_mem_replicate hv ▸ he
  · exact List.mem_singleton.mp hv ▸ hl

theorem keysAre_row (h : last.KeysAre IsPlainKey) : (row last).KeysAre IsPlainKey := by
  have hkey : IsPlainKey "kx" := ⟨['x'], rfl, List.forall_mem_singleton.mpr rfl⟩
  have hlist := Json.KeysAre.list (forall_mem_rowValues (.object (by simp) (by simp)) h)
  exact .object (by simpa using hkey) (by simpa using hlist)

theorem distinct_row (h : last.Distinct) : (row last).Distinct := by
  have hlist := Json.Distinct.list (forall_mem_rowValues (.object .nil (by simp)) h)
  exact .object (by simp) (by simpa using hlist)

theorem mem_preorder_row (last : Json) : Node.list rowPath (rowItems last) ∈
    (Node.annotate (.ofRoot Path.defaultRoot) (row last)).preorder :=
  Node.mem_preorder_object _ List.mem_cons_self (Node.mem_preorder_self _)

theorem shape?_row (last : Json) : (Node.list rowPath (rowItems last)).shape? =
    some (.ofItems rowPath (rowItems last)) := by
  refine Node.shape?_mixed rowPath ?_
  by_contra hm
  have hl : (Node.annotate (rowPath.position 0) (.object [])).label =
      (Node.annotate (rowPath.position 1) (.object [])).label :=
    Node.label_eq_of_not_mixed (Bool.not_eq_true _ ▸ hm) List.mem_cons_self
      (List.mem_cons_of_mem _ List.mem_cons_self)
  exact absurd hl (by decide)

end

namespace Node

/-- Seventeen variants, and the seventeenth item declares nothing. -/
theorem avoids_items_iff_null :
    (row .null).KeysAre IsPlainKey ∧ (row .null).Distinct ∧
      list rowPath (rowItems .null) ∈ (annotate (.ofRoot Path.defaultRoot) (row .null)).preorder ∧
      (list rowPath (rowItems .null)).shape? = some (.ofItems rowPath (rowItems .null)) ∧
      (Shape.ofItems rowPath (rowItems .null)).constructors.length = 17 ∧
      (Shape.ofItems rowPath (rowItems .null)).Avoids (rowItems .null) ∧
      Artifacts.ofJson {} (row .null) ≠
        .error (.taken "Kx16" (.node rowPath) (rowPath.position 16)) := by
  have hk : (row .null).KeysAre IsPlainKey := keysAre_row .null
  have hd : (row .null).Distinct := distinct_row .null
  obtain ⟨hiff, hconversion⟩ := avoids_items_iff hk (mem_preorder_row .null) (shape?_row .null)
  have clear : (Shape.ofItems rowPath (rowItems .null)).Avoids (rowItems .null) := by
    refine hiff.mpr (.inr fun i item hi hs hn => ?_)
    have hlt : i < 17 := (List.getElem?_eq_some_iff.mp hi).1
    obtain rfl : i = 16 := Nat.le_antisymm (Nat.le_of_lt_succ hlt) hn
    cases hi
    exact absurd hs (by decide)
  exact ⟨hk, hd, mem_preorder_row _, shape?_row _, by decide +kernel, clear,
    ((hconversion {} rfl).2 hd clear "Kx16" 16).1⟩

/-- With a seventeenth object the list's last constructor is that object's name. -/
theorem not_avoids_items :
    (row (.object [])).KeysAre IsPlainKey ∧ (row (.object [])).Distinct ∧
      list rowPath (rowItems (.object [])) ∈
        (annotate (.ofRoot Path.defaultRoot) (row (.object []))).preorder ∧
      (list rowPath (rowItems (.object []))).shape? =
        some (.ofItems rowPath (rowItems (.object []))) ∧
      ¬ (Shape.ofItems rowPath (rowItems (.object []))).Avoids (rowItems (.object [])) ∧
      Artifacts.ofJson {} (row (.object [])) =
        .error (.taken "Kx16" (.node rowPath) (rowPath.position 16)) := by
  have hk : (row (.object [])).KeysAre IsPlainKey := keysAre_row (.object (by simp) (by simp))
  have hd : (row (.object [])).Distinct := distinct_row (.object .nil (by simp))
  have hitem : (rowItems (.object []))[16]? = some (.object (rowPath.position 16) []) := rfl
  have hc : typeName (rowPath.position 16) ∈
      (Shape.ofItems rowPath (rowItems (.object []))).constructors := by decide +kernel
  refine ⟨hk, hd, mem_preorder_row _, shape?_row _, fun h => ?_, by decide +kernel⟩
  exact h _ (List.mem_of_getElem? hitem) _ rfl hc

end Node

end ElmCodec
