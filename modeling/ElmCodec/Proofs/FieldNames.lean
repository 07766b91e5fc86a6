import ElmCodec.Proofs.Titles

/-!
# Names of record fields

Every key gives a field that Elm takes: a lower-case letter, then letters and
digits, and an underscore only behind a reserved word. Names are not split into
the words that they were put together from: a digit goes on with the word before
it, and so does a capital after a capital. But the words that come out start with
capitals, all but the first, so putting them together gives the same name again.
-/

namespace ElmCodec

namespace Word

-- ---------------------------------------------------------------------------
-- Words of letters and digits
-- ---------------------------------------------------------------------------

theorem scan_cons (h : c.isAlphanum = true) (lower : Bool) (rest : List Char) :
    scan lower (c :: rest) =
      if c.isUpper && lower then ([], (c :: (scan false rest).1) :: (scan false rest).2)
      else
        (c :: (scan (c.isLower || c.isDigit) rest).1,
          (scan (c.isLower || c.isDigit) rest).2) := by
  simp [scan, h]

theorem flatten_scan (h : Alphanumeric text) (lower : Bool) :
    (scan lower text).1 ++ (scan lower text).2.flatten = text := by
  induction text generalizing lower with
  | nil => rfl
  | cons c rest ih =>
    obtain ⟨hc, hr⟩ := List.forall_mem_cons.mp h
    rw [scan_cons hc]
    split
    · simpa using ih hr false
    · simpa using ih hr (c.isLower || c.isDigit)

theorem capitalize_scan (h : Alphanumeric text) (lower : Bool) :
    ∀ word ∈ (scan lower text).2, capitalize word = word := by
  induction text generalizing lower with
  | nil => exact nofun
  | cons c rest ih =>
    obtain ⟨hc, hr⟩ := List.forall_mem_cons.mp h
    rw [scan_cons hc]
    split
    · -- Only a capital starts a word behind the first.
      rename_i hu
      have hu : c.toUpper = c :=
        toUpper_of_isLower_eq_false (isLower_of_isUpper (Bool.and_eq_true_iff.mp hu).1)
      exact List.forall_mem_cons.mpr ⟨by rw [capitalize, hu], ih hr false⟩
    · exact ih hr (c.isLower || c.isDigit)

theorem isUpper_scan (h : Alphanumeric text) : ∀ c ∈ (scan true text).1, c.isUpper = false := by
  induction text with
  | nil => exact nofun
  | cons c rest ih =>
    obtain ⟨hc, hr⟩ := List.forall_mem_cons.mp h
    rw [scan_cons hc]
    split
    · exact nofun
    · rename_i hu
      have hu : c.isUpper = false := by simpa using hu
      rw [isLower_or_isDigit hc hu]
      exact List.forall_mem_cons.mpr ⟨hu, ih hr⟩

theorem map_toLower {word : Word} (h : ∀ c ∈ word, c.isUpper = false) :
    word.map Char.toLower = word := by
  rw [List.map_congr_left fun c hc => toLower_of_isUpper_eq_false (h c hc), List.map_id']

theorem title_eq_flatten {words : List Word} (h : ∀ word ∈ words, capitalize word = word) :
    title words = words.flatten := by
  rw [title, List.flatMap_def, List.map_congr_left h, List.map_id']

theorem title_split (text : List Char) :
    title (split text) = capitalize (scan false text).1 ++ title (scan false text).2 := by
  rcases hs : scan false text with ⟨_ | ⟨c, word⟩, words⟩ <;> simp [split, hs, title, capitalize]

theorem title_split_of_capital (h : Alphanumeric text) (hc : Capital text) :
    title (split text) = text := by
  have hf := flatten_scan h false
  have hw : capitalize (scan false text).1 = (scan false text).1 := by
    cases hs : (scan false text).1 with
    | nil => rfl
    | cons c rest =>
      rw [hs, List.cons_append] at hf
      rw [capitalize, toUpper_of_isLower_eq_false (hc c (by rw [← hf]; rfl))]
  rw [title_split, hw, title_eq_flatten (capitalize_scan h false), hf]

theorem camel_split_of_head (h : Alphanumeric (c :: rest)) (hc : c.isUpper = false) :
    camel (split (c :: rest)) = c :: rest := by
  obtain ⟨hac, har⟩ := List.forall_mem_cons.mp h
  have hs : scan false (c :: rest) = (c :: (scan true rest).1, (scan true rest).2) := by
    simp [scan_cons hac, hc, isLower_or_isDigit hac hc]
  have hsplit : split (c :: rest) = (c :: (scan true rest).1) :: (scan true rest).2 := by
    simp [split, hs]
  have hlower : (c :: (scan true rest).1).map Char.toLower = c :: (scan true rest).1 :=
    map_toLower (List.forall_mem_cons.mpr ⟨hc, isUpper_scan har⟩)
  rw [hsplit, camel, hlower, title_eq_flatten (capitalize_scan har true), List.cons_append,
    flatten_scan har true]

-- ---------------------------------------------------------------------------
-- Words of any text
-- ---------------------------------------------------------------------------

theorem nil_not_mem_scan (lower : Bool) (text : List Char) : [] ∉ (scan lower text).2 := by
  induction text generalizing lower with
  | nil => exact nofun
  | cons c rest ih =>
    simp only [scan]
    split
    · have hr := ih false
      rcases hs : scan false rest with ⟨_ | ⟨d, word⟩, words⟩ <;> simpa [hs] using hr
    · split
      · simpa using ih false
      · exact ih (c.isLower || c.isDigit)

theorem nil_not_mem_split (text : List Char) : [] ∉ split text := by
  have h := nil_not_mem_scan false text
  rcases hs : scan false text with ⟨_ | ⟨c, word⟩, words⟩ <;> simpa [split, hs] using h

theorem scan_concat (h : mark.isAlphanum = false) (lower : Bool) (text : List Char) :
    scan lower (text ++ [mark]) = scan lower text := by
  induction text generalizing lower with
  | nil => simp [scan, h]
  | cons c rest ih => simp only [List.cons_append, scan, ih]

theorem split_concat (h : mark.isAlphanum = false) (text : List Char) :
    split (text ++ [mark]) = split text := by
  rw [split, split, scan_concat h]

theorem exists_cons_split (h : Alphanumeric (c :: rest)) :
    ∃ word words, split (c :: rest) = word :: words := by
  obtain ⟨hc, -⟩ := List.forall_mem_cons.mp h
  simp [split, scan_cons hc]

end Word

-- ---------------------------------------------------------------------------
-- Case forms
-- ---------------------------------------------------------------------------

def camelCase (text : String) : List Char := Word.camel (Word.split text.toList)

theorem isAlphanum_toLower {c : Char} (h : c.isAlphanum = true) : c.toLower.isAlphanum = true :=
  of_isAlphanum (p := fun c => c.toLower.isAlphanum = true) h (by decide)

theorem isUpper_toLower {c : Char} (h : c.isAlphanum = true) : c.toLower.isUpper = false :=
  of_isAlphanum (p := fun c => c.toLower.isUpper = false) h (by decide)

theorem exists_cons_camel {words : List Word} (hw : ∀ word ∈ words, Alphanumeric word)
    (hn : [] ∉ words) (hne : words ≠ []) :
    ∃ c rest, Word.camel words = c :: rest ∧ c.isUpper = false ∧ Alphanumeric (c :: rest) := by
  match words with
  | [] => exact absurd rfl hne
  | [] :: _ => exact absurd List.mem_cons_self hn
  | (c :: word) :: words =>
    obtain ⟨hfirst, hrest⟩ := List.forall_mem_cons.mp hw
    have hlower : Alphanumeric ((c :: word).map Char.toLower) :=
      List.forall_mem_map.mpr fun d hd => isAlphanum_toLower (hfirst d hd)
    have htitle : Alphanumeric (Word.title words) := by
      intro d hd
      obtain ⟨word, hword, hd⟩ := List.mem_flatMap.mp hd
      exact Word.alphanumeric_capitalize (hrest word hword) d hd
    exact ⟨c.toLower, _, rfl, isUpper_toLower (hfirst c List.mem_cons_self),
      hlower.append htitle⟩

theorem titleCase_titleCase (text : String) :
    titleCase (String.ofList (titleCase text)) = titleCase text := by
  conv_lhs => rw [titleCase, String.toList_ofList]
  exact Word.title_split_of_capital (alphanumeric_titleCase text) (capital_titleCase text)

theorem camelCase_camelCase (text : String) :
    camelCase (String.ofList (camelCase text)) = camelCase text := by
  conv_lhs => rw [camelCase, String.toList_ofList]
  by_cases hne : Word.split text.toList = []
  · rw [camelCase, hne]
    rfl
  · obtain ⟨c, rest, hc, hu, ha⟩ := exists_cons_camel (Word.alphanumeric_split text.toList)
      (Word.nil_not_mem_split text.toList) hne
    rw [camelCase, hc]
    exact Word.camel_split_of_head ha hu

-- ---------------------------------------------------------------------------
-- Fields
-- ---------------------------------------------------------------------------

def IsFieldLetters (letters : List Char) : Prop :=
  ∃ c rest, letters = c :: rest ∧ c.isLower = true ∧ Alphanumeric rest

theorem IsFieldLetters.alphanumeric (h : IsFieldLetters letters) : Alphanumeric letters := by
  obtain ⟨c, rest, rfl, hc, hr⟩ := h
  exact .cons (isAlphanum_iff.mpr (.inl (isAlpha_iff.mpr (.inr hc)))) hr

theorem isFieldLetters_withField (hu : c.isUpper = false) (h : Alphanumeric (c :: rest)) :
    IsFieldLetters (withField (c :: rest)) := by
  cases hd : c.isDigit with
  | true =>
    have hw : withField (c :: rest) = 'f' :: ("ield".toList ++ c :: rest) := if_pos hd
    exact ⟨'f', _, hw, rfl, .append (by decide) h⟩
  | false =>
    have hw : withField (c :: rest) = c :: rest := if_neg (by simp [hd])
    obtain ⟨hc, hr⟩ := List.forall_mem_cons.mp h
    have hl := isLower_or_isDigit hc hu
    exact ⟨c, rest, hw, by simpa [hd] using hl, hr⟩

theorem exists_letters_fieldName (key : String) :
    ∃ letters, IsFieldLetters letters ∧ fieldName key = unreserved (String.ofList letters) := by
  by_cases hne : Word.split key.toList = []
  · refine ⟨"field".toList, ⟨'f', _, rfl, rfl, by decide⟩, ?_⟩
    rw [fieldName, hne]
    decide
  · obtain ⟨c, rest, hc, hu, ha⟩ := exists_cons_camel (Word.alphanumeric_split key.toList)
      (Word.nil_not_mem_split key.toList) hne
    refine ⟨withField (c :: rest), isFieldLetters_withField hu ha, ?_⟩
    rw [← hc]
    unfold fieldName
    split
    · contradiction
    · rfl

theorem fieldName_of_split_eq {key other : String}
    (h : Word.split key.toList = Word.split other.toList) : fieldName key = fieldName other := by
  rw [fieldName, fieldName, h]

theorem fieldName_letters (h : IsFieldLetters letters) :
    fieldName (String.ofList letters) = unreserved (String.ofList letters) := by
  obtain ⟨c, rest, rfl, hc, -⟩ := id h
  obtain ⟨word, words, hs⟩ := Word.exists_cons_split h.alphanumeric
  have hcamel := Word.camel_split_of_head h.alphanumeric (isUpper_of_isLower hc)
  have hfield : withField (c :: rest) = c :: rest := if_neg (by simp [isDigit_of_isLower hc])
  rw [hs] at hcamel
  rw [fieldName, String.toList_ofList, hs]
  simp only [hcamel, hfield]

theorem fieldName_unreserved (h : IsFieldLetters letters) :
    fieldName (unreserved (String.ofList letters)) = unreserved (String.ofList letters) := by
  refine Eq.trans ?_ (fieldName_letters h)
  unfold unreserved
  split
  · -- The underscore separates the word from nothing.
    refine fieldName_of_split_eq ?_
    have hu : "_".toList = ['_'] := rfl
    rw [String.toList_append, hu, Word.split_concat rfl]
  · rfl

def IsFieldName (name : String) : Prop :=
  ∃ c rest, c.isLower = true ∧ Alphanumeric rest ∧
    (name.toList = c :: rest ∨ name.toList = c :: rest ++ ['_'])

theorem isFieldName_unreserved (h : IsFieldLetters letters) :
    IsFieldName (unreserved (String.ofList letters)) := by
  obtain ⟨c, rest, rfl, hc, hr⟩ := h
  refine ⟨c, rest, hc, hr, ?_⟩
  unfold unreserved
  split
  · exact .inr (by simp)
  · exact .inl (by simp)

theorem append_underscore_not_mem (name : String) : name ++ "_" ∉ reservedWords := by
  intro hm
  have last : ∀ word ∈ reservedWords, word.toList.getLast? ≠ some '_' := by decide
  exact last _ hm (by simp [String.toList_append])

theorem unreserved_not_mem (name : String) : unreserved name ∉ reservedWords := by
  unfold unreserved
  split
  · exact append_underscore_not_mem name
  · rename_i hn
    simpa using hn

theorem mem_of_unreserved_eq_append (h : Alphanumeric letters)
    (he : unreserved (String.ofList letters) = rest ++ "_") : rest ∈ reservedWords := by
  unfold unreserved at he
  split at he
  · rename_i hn
    rw [String.append_left_inj] at he
    exact he ▸ by simpa using hn
  · have hl : letters = rest.toList ++ ['_'] := by
      simpa using congrArg String.toList he
    have hu := h '_' (by simp [hl])
    exact absurd hu (by decide)

/-- A field is a name that Elm takes. It ends in an underscore only behind a reserved word,
and it is its own field. Title and camel forms are their own as well. -/
theorem fieldName_fieldName (key : String) :
    IsFieldName (fieldName key) ∧ fieldName key ∉ reservedWords ∧
      (∀ rest, fieldName key = rest ++ "_" → rest ∈ reservedWords) ∧
      fieldName (fieldName key) = fieldName key ∧
      titleCase (String.ofList (titleCase key)) = titleCase key ∧
      camelCase (String.ofList (camelCase key)) = camelCase key := by
  obtain ⟨letters, hl, he⟩ := exists_letters_fieldName key
  refine ⟨he ▸ isFieldName_unreserved hl, he ▸ unreserved_not_mem _, fun rest hr => ?_, ?_,
    titleCase_titleCase key, camelCase_camelCase key⟩
  · exact mem_of_unreserved_eq_append hl.alphanumeric (he.symm.trans hr)
  · rw [he]
    exact fieldName_unreserved hl

theorem fieldName_fieldName_type : fieldName "Type" = "type" ++ "_" ∧ "type" ∈ reservedWords := by
  obtain ⟨-, -, hreserved, -⟩ := fieldName_fieldName "Type"
  have h : fieldName "Type" = "type" ++ "_" := by decide
  exact ⟨h, hreserved "type" h⟩

end ElmCodec
