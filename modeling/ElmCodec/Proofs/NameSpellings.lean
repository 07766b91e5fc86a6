import ElmCodec.Proofs.FieldNames
import ElmCodec.Proofs.Locations
import ElmCodec.Proofs.Programs

/-!
# Spellings of a name

The words of a name can stand apart, with any text between them that has no
letters and digits, or run together in camel case. The splitter does not always
find the same words again: one-letter words grow together in camel case, so
`a b c` and `aBC` are split differently. Put together, the words found give one
name for every spelling, so no object can have two of them as keys.
-/

namespace ElmCodec

namespace Word

def IsPlain (word : Word) : Prop := ∀ c ∈ word, (c.isLower || c.isDigit) = true

instance (word : Word) : Decidable word.IsPlain :=
  decidable_of_iff (word.all (fun c => c.isLower || c.isDigit) = true) List.all_eq_true

def IsGap (text : List Char) : Prop := ∀ c ∈ text, c.isAlphanum = false

instance (text : List Char) : Decidable (IsGap text) :=
  decidable_of_iff (text.all (fun c => !c.isAlphanum) = true) (by simp [IsGap])

/-- The words in their order, with a gap between any two and text of this kind around them. -/
inductive Separated : List Word → List Char → Prop
  | last : IsGap before → IsGap after → Separated [word] (before ++ word ++ after)
  | cons : IsGap before → IsGap gap → gap ≠ [] → Separated words text →
      Separated (word :: words) (before ++ word ++ gap ++ text)

def camelSpelling : List Word → List Char
  | [] => []
  | word :: rest => word ++ rest.flatMap capitalize

inductive Spells (words : List Word) (text : String) : Prop
  | camel : text.toList = camelSpelling words → Spells words text
  | separated : Separated words text.toList → Spells words text

-- ---------------------------------------------------------------------------
-- Words that stand apart
-- ---------------------------------------------------------------------------

theorem IsPlain.isUpper (h : IsPlain word) : ∀ c ∈ word, c.isUpper = false := by
  intro c hc
  rcases Bool.or_eq_true_iff.mp (h c hc) with hl | hd
  · exact isUpper_of_isLower hl
  · exact isUpper_of_isDigit hd

theorem IsPlain.alphanumeric (h : IsPlain word) : Alphanumeric word := by
  intro c hc
  rcases Bool.or_eq_true_iff.mp (h c hc) with hl | hd
  · exact isAlphanum_iff.mpr (.inl (isAlpha_iff.mpr (.inr hl)))
  · exact isAlphanum_iff.mpr (.inr hd)

theorem scan_gap (hc : c.isAlphanum = false) (lower : Bool) (rest : List Char) :
    scan lower (c :: rest) = ([], split rest) := by
  rcases hs : scan false rest with ⟨_ | ⟨d, word⟩, words⟩ <;> simp [scan, split, hc, hs]

theorem split_cons (hc : c.isAlphanum = false) (rest : List Char) :
    split (c :: rest) = split rest := by
  rw [split, scan_gap hc]

theorem split_gap (hg : IsGap gap) (text : List Char) : split (gap ++ text) = split text := by
  induction gap with
  | nil => rfl
  | cons c rest ih =>
    obtain ⟨hc, hr⟩ := List.forall_mem_cons.mp hg
    rw [List.cons_append, split_cons hc, ih hr]

theorem scan_plain (hw : IsPlain word) (ht : ∀ c ∈ text.head?, c.isAlphanum = false)
    (lower : Bool) : scan lower (word ++ text) = (word, split text) := by
  induction word generalizing lower with
  | nil =>
    cases text with
    | nil => rfl
    | cons c rest =>
      have hc : c.isAlphanum = false := ht c rfl
      rw [List.nil_append, scan_gap hc, split_cons hc]
  | cons c rest ih =>
    have hc : c.isAlphanum = true := hw.alphanumeric c List.mem_cons_self
    have hu : c.isUpper = false := hw.isUpper c List.mem_cons_self
    simp [scan_cons hc, hu, ih (List.forall_mem_cons.mp hw).2]

theorem split_plain (hw : IsPlain word) (hne : word ≠ [])
    (ht : ∀ c ∈ text.head?, c.isAlphanum = false) :
    split (word ++ text) = word :: split text := by
  rw [split, scan_plain hw ht]
  cases word with
  | nil => exact absurd rfl hne
  | cons c rest => rfl

theorem IsGap.head? (hg : IsGap gap) : ∀ c ∈ gap.head?, c.isAlphanum = false :=
  fun c hc => hg c (List.mem_of_mem_head? hc)

theorem split_separated (hw : ∀ word ∈ words, IsPlain word ∧ word ≠ [])
    (h : Separated words text) : split text = words := by
  induction h with
  | @last before after word hb ha =>
    obtain ⟨hp, hne⟩ := hw word List.mem_cons_self
    have hafter : split after = [] := by
      rw [← List.append_nil after]
      exact split_gap ha []
    rw [List.append_assoc, split_gap hb, split_plain hp hne ha.head?, hafter]
  | @cons before gap words text word hb hg hgap _ ih =>
    obtain ⟨⟨hp, hne⟩, hrest⟩ := List.forall_mem_cons.mp hw
    have hhead : ∀ c ∈ (gap ++ text).head?, c.isAlphanum = false := by
      rw [List.head?_append_of_ne_nil _ hgap]
      exact hg.head?
    rw [List.append_assoc, List.append_assoc, split_gap hb, split_plain hp hne hhead,
      split_gap hg, ih hrest]

-- ---------------------------------------------------------------------------
-- One name for all spellings
-- ---------------------------------------------------------------------------

theorem title_split_of_head (h : Alphanumeric (c :: rest)) (hc : c.isUpper = false) :
    title (split (c :: rest)) = c.toUpper :: rest := by
  obtain ⟨hac, har⟩ := List.forall_mem_cons.mp h
  have hs : scan false (c :: rest) = (c :: (scan true rest).1, (scan true rest).2) := by
    simp [scan_cons hac, hc, isLower_or_isDigit hac hc]
  rw [title_split, hs, capitalize, title_eq_flatten (capitalize_scan har true),
    List.cons_append, flatten_scan har true]

section
variable {words : List Word}

theorem exists_cons_camelSpelling (hne : words ≠ [])
    (hw : ∀ word ∈ words, IsPlain word ∧ word ≠ []) :
    ∃ c rest, camelSpelling words = c :: rest ∧ title words = c.toUpper :: rest ∧
      c.isUpper = false ∧ Alphanumeric (c :: rest) := by
  match words with
  | [] => exact absurd rfl hne
  | [] :: _ => exact absurd rfl (hw [] List.mem_cons_self).2
  | (c :: word) :: others =>
    obtain ⟨⟨hp, -⟩, hothers⟩ := List.forall_mem_cons.mp hw
    have htitle : Alphanumeric (others.flatMap capitalize) := by
      intro d hd
      obtain ⟨other, ho, hd⟩ := List.mem_flatMap.mp hd
      exact alphanumeric_capitalize (hothers other ho).1.alphanumeric d hd
    exact ⟨c, word ++ others.flatMap capitalize, rfl, rfl, hp.isUpper c List.mem_cons_self,
      hp.alphanumeric.append htitle⟩

theorem camel_of_plain (hw : ∀ word ∈ words, IsPlain word) : camel words = camelSpelling words := by
  cases words with
  | nil => rfl
  | cons word rest => rw [camel, map_toLower (hw word List.mem_cons_self).isUpper]; rfl

variable {text : String}

theorem camelCase_of_spells (hne : words ≠ []) (hw : ∀ word ∈ words, IsPlain word ∧ word ≠ [])
    (h : Spells words text) : camelCase text = camelSpelling words := by
  cases h with
  | camel h =>
    obtain ⟨c, rest, hc, -, hu, ha⟩ := exists_cons_camelSpelling hne hw
    rw [camelCase, h, hc]
    exact camel_split_of_head ha hu
  | separated h =>
    rw [camelCase, split_separated hw h]
    exact camel_of_plain fun word hm => (hw word hm).1

theorem titleCase_of_spells (hne : words ≠ []) (hw : ∀ word ∈ words, IsPlain word ∧ word ≠ [])
    (h : Spells words text) : titleCase text = title words := by
  cases h with
  | camel h =>
    obtain ⟨c, rest, hc, ht, hu, ha⟩ := exists_cons_camelSpelling hne hw
    rw [titleCase, h, hc, ht]
    exact title_split_of_head ha hu
  | separated h => rw [titleCase, split_separated hw h]

end

end Word

theorem fieldName_of_camelCase_eq {first second : String}
    (h : camelCase first = camelCase second) : fieldName first = fieldName second := by
  have empty : ∀ {text : String}, camelCase text = [] ↔ Word.split text.toList = [] := by
    intro text
    refine ⟨fun ht => ?_, fun ht => by rw [camelCase, ht]; rfl⟩
    by_contra hne
    obtain ⟨c, rest, hc, -⟩ := exists_cons_camel (Word.alphanumeric_split text.toList)
      (Word.nil_not_mem_split text.toList) hne
    rw [camelCase, hc] at ht
    cases ht
  have eq : ∀ {text : String}, Word.split text.toList ≠ [] →
      fieldName text = unreserved (String.ofList (withField (camelCase text))) := by
    intro text hne
    unfold fieldName
    split
    · contradiction
    · rfl
  by_cases hf : Word.split first.toList = []
  · have hs := empty.mp (h ▸ empty.mpr hf)
    exact fieldName_of_split_eq (hf.trans hs.symm)
  · have hs : Word.split second.toList ≠ [] := fun hs => hf (empty.mp (h.trans (empty.mpr hs)))
    rw [eq hf, eq hs, h]

-- ---------------------------------------------------------------------------
-- Two spellings in one object
-- ---------------------------------------------------------------------------

theorem Shape.not_nodup_identifiers {members : List (String × Node)} {path : Path}
    (hf : first ∈ members.map (·.1)) (hs : second ∈ members.map (·.1)) (hne : first ≠ second)
    (h : fieldName first = fieldName second) : ¬(ofMembers path members).identifiers.Nodup := by
  intro hn
  have hkeys : ((Members.sort members).map (·.1)).map fieldName =
      (ofMembers path members).identifiers := by
    simp [identifiers, ofMembers, field, Function.comp_def]
  have hmem : ∀ {key}, key ∈ members.map (·.1) → key ∈ (Members.sort members).map (·.1) :=
    fun hk => ((Members.sort_perm members).map _).mem_iff.mpr hk
  rw [← hkeys] at hn
  exact hne (List.inj_on_of_nodup_map hn (hmem hf) (hmem hs) h)

theorem NameCheck.run_of_fieldName_eq {path : Path} {json : Json} {location : List Segment}
    (hpart : json.part? location = some (.object members))
    (hf : first ∈ members.map (·.1)) (hs : second ∈ members.map (·.1)) (hne : first ≠ second)
    (h : fieldName first = fieldName second) :
    ∃ fault, run (.annotate path json) = .error fault := by
  obtain ⟨partPath, hp⟩ := Node.exists_mem_preorder_of_part? path hpart
  cases hrun : run (.annotate path json) with
  | error fault => exact ⟨fault, rfl⟩
  | ok _ =>
    have hc := run_ok_iff.mp hrun
    have hshape := (Node.shapes_sublist _ hp).subset (Node.mem_shapes_self rfl)
    refine absurd (hc.identifiers _ hshape) (Shape.not_nodup_identifiers ?_ ?_ hne h)
    · simpa [Node.annotateMembers_eq_map, Function.comp_def] using hf
    · simpa [Node.annotateMembers_eq_map, Function.comp_def] using hs

/-- All spellings of some words give one field and one title form. An object that has two of
them as keys, wherever it stands in a document, makes the name check fail. -/
theorem fieldName_of_spells {words : List Word} (hne : words ≠ [])
    (hw : ∀ word ∈ words, word.IsPlain ∧ word ≠ []) :
    (∀ first second, Word.Spells words first → Word.Spells words second →
      fieldName first = fieldName second ∧ titleCase first = titleCase second) ∧
    ∀ path json location members, Json.part? json location = some (.object members) →
      ∀ first ∈ members.map (·.1), ∀ second ∈ members.map (·.1), first ≠ second →
        Word.Spells words first → Word.Spells words second →
          ∃ fault, NameCheck.run (.annotate path json) = .error fault := by
  have agree : ∀ first second, Word.Spells words first → Word.Spells words second →
      fieldName first = fieldName second ∧ titleCase first = titleCase second := by
    intro first second hf hs
    have hcamel := (Word.camelCase_of_spells hne hw hf).trans
      (Word.camelCase_of_spells hne hw hs).symm
    have htitle := (Word.titleCase_of_spells hne hw hf).trans
      (Word.titleCase_of_spells hne hw hs).symm
    exact ⟨fieldName_of_camelCase_eq hcamel, htitle⟩
  refine ⟨agree, fun path json location members hpart first hf second hs hkeys hfirst hsecond => ?_⟩
  exact NameCheck.run_of_fieldName_eq hpart hf hs hkeys (agree first second hfirst hsecond).1

/-- `user_id2` and `userId2` in an object of a list, and a third spelling. -/
theorem fieldName_of_spells_userId :
    fieldName "→ user  id2\n" = fieldName "userId2" ∧
      titleCase "→ user  id2\n" = titleCase "userId2" ∧
      ∃ fault, NameCheck.run (.annotate (.ofRoot Path.defaultRoot)
        (.list [.null, .object [("user_id2", .null), ("a", .null), ("userId2", .null)]])) =
          .error fault := by
  have hw : ∀ word ∈ ["user".toList, "id2".toList], Word.IsPlain word ∧ word ≠ [] := by decide
  obtain ⟨hagree, hfault⟩ := fieldName_of_spells (by decide) hw
  have hcamel : Word.Spells ["user".toList, "id2".toList] "userId2" := .camel (by decide)
  have hsnake : Word.Separated ["user".toList, "id2".toList]
      ([] ++ "user".toList ++ ['_'] ++ ([] ++ "id2".toList ++ [])) :=
    .cons (by decide) (by decide) (by decide) (.last (by decide) (by decide))
  have hspaces : Word.Separated ["user".toList, "id2".toList]
      (['→', ' '] ++ "user".toList ++ [' ', ' '] ++ ([] ++ "id2".toList ++ ['\n'])) :=
    .cons (by decide) (by decide) (by decide) (.last (by decide) (by decide))
  obtain ⟨hfield, htitle⟩ := hagree "→ user  id2\n" "userId2" (.separated hspaces) hcamel
  exact ⟨hfield, htitle, hfault _ _ [.position 1] _ rfl "user_id2" (by simp) "userId2" (by simp)
    (by decide) (.separated hsnake) hcamel⟩

end ElmCodec
