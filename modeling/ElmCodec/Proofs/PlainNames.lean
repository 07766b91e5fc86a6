import ElmCodec.Proofs.Constructors
import ElmCodec.Proofs.Titles

/-!
# Names of plain paths

A plain path goes down from the default root by plain keys and by positions
that have a noun. Each gives a word of one capital and lower-case letters, so a
name can be taken apart at its capitals and tells the path that it comes from,
also with a number behind it. No name that Elm has in scope starts with a noun,
with the default root or with a `K`.
-/

namespace ElmCodec

-- ---------------------------------------------------------------------------
-- Words that can be told from their concatenation
-- ---------------------------------------------------------------------------

namespace Word

def IsTitle : Word → Prop
  | [] => False
  | c :: rest => c.isUpper = true ∧ ∀ c ∈ rest, c.isLower = true

instance : (word : Word) → Decidable word.IsTitle
  | [] => isFalse id
  | c :: rest =>
    decidable_of_iff ((c.isUpper && rest.all Char.isLower) = true) (by simp [IsTitle])

theorem IsTitle.exists_cons (h : IsTitle word) : ∃ c rest, word = c :: rest ∧
    c.isUpper = true ∧ ∀ c ∈ rest, c.isLower = true := by
  cases word with
  | nil => exact h.elim
  | cons c rest => exact ⟨c, rest, rfl, h⟩

theorem IsTitle.isAlpha (h : IsTitle word) : ∀ c ∈ word, c.isAlpha = true := by
  obtain ⟨c, rest, rfl, hc, hrest⟩ := h.exists_cons
  refine List.forall_mem_cons.mpr ⟨?_, fun d hd => ?_⟩
  · exact isAlpha_iff.mpr (.inl hc)
  · exact isAlpha_iff.mpr (.inr (hrest d hd))

theorem takeWhile_append_flatten {words : List Word} (hw : ∀ word ∈ words, IsTitle word)
    (hl : ∀ c ∈ letters, c.isLower = true) :
    (letters ++ words.flatten).takeWhile Char.isLower = letters := by
  rw [List.takeWhile_append_of_pos hl]
  cases words with
  | nil => simp
  | cons word rest =>
    obtain ⟨c, others, rfl, hc, -⟩ := (hw word List.mem_cons_self).exists_cons
    simp [isLower_of_isUpper hc]

theorem eq_nil_of_flatten_eq_nil {words : List Word} (hw : ∀ word ∈ words, IsTitle word)
    (h : words.flatten = []) : words = [] := by
  cases words with
  | nil => rfl
  | cons word rest =>
    obtain ⟨c, others, rfl, -⟩ := (hw word List.mem_cons_self).exists_cons
    simp at h

theorem eq_of_flatten_eq {first second : List Word} (hf : ∀ word ∈ first, IsTitle word)
    (hs : ∀ word ∈ second, IsTitle word) (h : first.flatten = second.flatten) : first = second := by
  induction first generalizing second with
  | nil => exact (eq_nil_of_flatten_eq_nil hs h.symm).symm
  | cons word rest ih =>
    cases second with
    | nil => exact eq_nil_of_flatten_eq_nil hf h
    | cons other others =>
      obtain ⟨hword, hrest⟩ := List.forall_mem_cons.mp hf
      obtain ⟨hother, hothers⟩ := List.forall_mem_cons.mp hs
      obtain ⟨c, letters, rfl, -, hletters⟩ := hword.exists_cons
      obtain ⟨d, more, rfl, -, hmore⟩ := hother.exists_cons
      obtain ⟨rfl, htail⟩ := List.cons.inj (by simpa using h)
      obtain rfl : letters = more := by
        rw [← takeWhile_append_flatten hrest hletters, htail,
          takeWhile_append_flatten hothers hmore]
      rw [ih hrest hothers (List.append_cancel_left htail)]

theorem scan_lower (h : ∀ c ∈ text, c.isLower = true) (lower : Bool) :
    scan lower text = (text, []) := by
  induction text generalizing lower with
  | nil => rfl
  | cons c rest ih =>
    obtain ⟨hc, hr⟩ := List.forall_mem_cons.mp h
    have ha : c.isAlphanum = true := isAlphanum_iff.mpr (.inl (isAlpha_iff.mpr (.inr hc)))
    simp [scan, ha, isUpper_of_isLower hc, ih hr]

end Word

-- ---------------------------------------------------------------------------
-- Plain keys and nouns
-- ---------------------------------------------------------------------------

theorem split_of_isPlainKey {key : String} (h : IsPlainKey key) :
    Word.split key.toList = [key.toList] := by
  obtain ⟨rest, hk, hr⟩ := h
  have hl : ∀ c ∈ 'k' :: rest, c.isLower = true := List.forall_mem_cons.mpr ⟨by decide, hr⟩
  rw [hk, Word.split, Word.scan_lower hl]

theorem titleCase_of_isPlainKey {key : String} (hk : key.toList = 'k' :: rest)
    (h : IsPlainKey key) : titleCase key = 'K' :: rest := by
  rw [titleCase, split_of_isPlainKey h, hk]
  simp [Word.title, Word.capitalize]

theorem fieldName_of_isPlainKey {key : String} (h : IsPlainKey key) : fieldName key = key := by
  obtain ⟨rest, hk, hr⟩ := id h
  have hlower : ('k' :: rest).map Char.toLower = 'k' :: rest := by
    have hrest : rest.map Char.toLower = rest := by
      conv_rhs => rw [← List.map_id rest]
      exact List.map_congr_left fun c hc =>
        toLower_of_isUpper_eq_false (isUpper_of_isLower (hr c hc))
    rw [List.map_cons, hrest]
    rfl
  have hfield : withField (Word.camel [key.toList]) = key.toList := by
    rw [hk, Word.camel, hlower, Word.title, List.flatMap_nil, List.append_nil]
    rfl
  have hreserved : key ∉ reservedWords := by
    intro hm
    have start : ∀ word ∈ reservedWords, word.toList.head? ≠ some 'k' := by decide
    exact start key hm (by rw [hk]; rfl)
  rw [fieldName, split_of_isPlainKey h]
  change unreserved (String.ofList (withField (Word.camel [key.toList]))) = key
  rw [hfield, String.ofList_toList, unreserved, if_neg (by simpa using hreserved)]

-- ---------------------------------------------------------------------------
-- Segments
-- ---------------------------------------------------------------------------

namespace Segment

/-- A plain key, or a position that has a noun. -/
def IsPlain : Segment → Prop
  | field name => IsPlainKey name
  | position index => index < positionNouns.length

variable {segment other : Segment}

theorem IsPlain.isTitle (h : segment.IsPlain) : Word.IsTitle (titleCase segment.label) := by
  cases segment with
  | field name =>
    obtain ⟨rest, hk, hr⟩ := id h
    rw [label, titleCase_of_isPlainKey hk h]
    exact ⟨by decide, hr⟩
  | position index =>
    have nouns : ∀ noun ∈ positionNouns, Word.IsTitle noun.toList := by decide
    rw [titleCase_position, positionLetters_noun h]
    exact nouns _ (noun_mem h)

theorem IsPlain.head_or_noun (h : segment.IsPlain) :
    (titleCase segment.label).head? = some 'K' ∨
      ∃ noun ∈ positionNouns, titleCase segment.label = noun.toList := by
  cases segment with
  | field name =>
    obtain ⟨rest, hk, -⟩ := id h
    rw [label, titleCase_of_isPlainKey hk h]
    exact .inl rfl
  | position index =>
    rw [titleCase_position, positionLetters_noun h]
    exact .inr ⟨_, noun_mem h, rfl⟩

theorem titleCase_field_ne_position {name : String} (hf : (field name).IsPlain)
    (hp : (position index).IsPlain) :
    titleCase (field name).label ≠ titleCase (position index).label := by
  obtain ⟨rest, hk, -⟩ := id hf
  have nouns : ∀ noun ∈ positionNouns, noun.toList.head? ≠ some 'K' := by decide
  rw [label, titleCase_of_isPlainKey hk hf, titleCase_position, positionLetters_noun hp]
  intro h
  exact nouns _ (noun_mem hp) (by rw [← h]; rfl)

theorem IsPlain.eq_of_titleCase_eq (hs : segment.IsPlain) (ho : other.IsPlain)
    (h : titleCase segment.label = titleCase other.label) : segment = other := by
  cases segment with
  | field name =>
    cases other with
    | field key =>
      obtain ⟨rest, hn, -⟩ := id hs
      obtain ⟨others, hk, -⟩ := id ho
      rw [label, label, titleCase_of_isPlainKey hn hs, titleCase_of_isPlainKey hk ho] at h
      rw [← String.ofList_toList (s := name), hn, (List.cons.inj h).2, ← hk, String.ofList_toList]
    | position index => exact absurd h (titleCase_field_ne_position hs ho)
  | position index =>
    cases other with
    | field key => exact absurd h.symm (titleCase_field_ne_position ho hs)
    | position index =>
      rw [titleCase_position, titleCase_position] at h
      rw [positionLetters_injective h]

end Segment

-- ---------------------------------------------------------------------------
-- Paths of plain keys and nouns
-- ---------------------------------------------------------------------------

namespace Path

structure IsPlain (path : Path) : Prop where
  root : path.root = defaultRoot
  segments : ∀ segment ∈ path.segments, segment.IsPlain

theorem IsPlain.child {path : Path} {segment : Segment} (hp : path.IsPlain)
    (hs : segment.IsPlain) : (path.child segment).IsPlain where
  root := hp.root
  segments := List.forall_mem_append.mpr ⟨hp.segments, List.forall_mem_singleton.mpr hs⟩

def words (path : Path) : List Word :=
  if path.isRoot then [titleCase path.root]
  else path.segments.map fun segment => titleCase segment.label

variable {path other : Path}

theorem IsPlain.isTitle (h : path.IsPlain) : ∀ word ∈ path.words, Word.IsTitle word := by
  unfold words
  split
  · rw [h.root]
    decide
  · intro word hw
    obtain ⟨segment, hs, rfl⟩ := List.mem_map.mp hw
    exact (h.segments segment hs).isTitle

theorem IsPlain.toList_typeName (h : path.IsPlain) :
    (typeName path).toList = path.words.flatten := by
  have ht := h.isTitle
  unfold typeName
  cases hr : path.isRoot with
  | true => simp [words, hr]
  | false =>
    have hw : path.words = path.segments.map fun segment => titleCase segment.label := by
      simp [words, hr]
    simp only [Bool.false_eq_true, if_false, String.toList_ofList]
    rw [List.flatMap_def, ← hw]
    -- A name that starts with a capital needs no `Item`.
    cases hs : path.words with
    | nil =>
      rw [hw, List.map_eq_nil_iff] at hs
      simp [isRoot, hs] at hr
    | cons word rest =>
      obtain ⟨c, letters, rfl, hc, -⟩ := (ht word (hs ▸ List.mem_cons_self)).exists_cons
      simp [withItem, isAlpha_iff.mpr (.inl hc)]

theorem titleCase_root_ne {segment : Segment} (hs : segment.IsPlain) :
    titleCase segment.label ≠ titleCase defaultRoot := by
  have hroot : titleCase defaultRoot = defaultRoot.toList := by decide
  intro h
  rw [hroot] at h
  rcases hs.head_or_noun with hk | ⟨noun, hn, he⟩
  · rw [h] at hk
    simp [defaultRoot] at hk
  · have nouns : ∀ noun ∈ positionNouns, noun.toList ≠ defaultRoot.toList := by decide
    exact nouns noun hn (he.symm.trans h)

theorem words_root_ne (hp : path.IsPlain) (ho : other.IsPlain) (hr : path.isRoot = true)
    (hor : other.isRoot = false) : path.words ≠ other.words := by
  intro h
  have hroot : titleCase path.root ∈ other.words := by
    rw [← h]
    simp [words, hr]
  simp only [words, hor, Bool.false_eq_true, if_false] at hroot
  obtain ⟨segment, hs, he⟩ := List.mem_map.mp hroot
  exact titleCase_root_ne (ho.segments segment hs) (hp.root ▸ he)

theorem segments_eq_of_words_eq {segments others : List Segment}
    (hs : ∀ segment ∈ segments, segment.IsPlain) (ho : ∀ segment ∈ others, segment.IsPlain)
    (h : segments.map (fun segment => titleCase segment.label) =
      others.map fun segment => titleCase segment.label) : segments = others := by
  induction segments generalizing others with
  | nil => exact (List.map_eq_nil_iff.mp h.symm).symm
  | cons segment rest ih =>
    cases others with
    | nil => cases h
    | cons other others =>
      obtain ⟨hsegment, hrest⟩ := List.forall_mem_cons.mp hs
      obtain ⟨hother, hothers⟩ := List.forall_mem_cons.mp ho
      obtain ⟨he, h⟩ := List.cons.inj h
      rw [hsegment.eq_of_titleCase_eq hother he, ih hrest hothers h]

theorem eq_of_words_eq (hp : path.IsPlain) (ho : other.IsPlain) (h : path.words = other.words) :
    path = other := by
  have hsegments : path.segments = other.segments := by
    cases hr : path.isRoot with
    | true =>
      cases hor : other.isRoot with
      | true =>
        simp only [isRoot, List.isEmpty_iff] at hr hor
        rw [hr, hor]
      | false => exact absurd h (words_root_ne hp ho hr hor)
    | false =>
      cases hor : other.isRoot with
      | true => exact absurd h.symm (words_root_ne ho hp hor hr)
      | false =>
        simp only [words, hr, hor, Bool.false_eq_true, if_false] at h
        exact segments_eq_of_words_eq hp.segments ho.segments h
  have hroot : path.root = other.root := hp.root.trans ho.root.symm
  cases path
  cases other
  congr

/-- A plain path can be read off its name. -/
theorem eq_of_typeName_eq (hp : path.IsPlain) (ho : other.IsPlain)
    (h : typeName path = typeName other) : path = other := by
  refine eq_of_words_eq hp ho (Word.eq_of_flatten_eq hp.isTitle ho.isTitle ?_)
  rw [← hp.toList_typeName, h, ho.toList_typeName]

theorem IsPlain.isAlpha_typeName (h : path.IsPlain) :
    ∀ c ∈ (typeName path).toList, c.isAlpha = true := by
  intro c hc
  rw [h.toList_typeName] at hc
  obtain ⟨word, hw, hc⟩ := List.mem_flatten.mp hc
  exact (h.isTitle word hw).isAlpha c hc

theorem eq_of_typeName_append_eq (hp : path.IsPlain) (ho : other.IsPlain)
    (hf : ∀ c ∈ first.toList, c.isDigit = true) (hs : ∀ c ∈ second.toList, c.isDigit = true)
    (h : typeName path ++ first = typeName other ++ second) : path = other := by
  have letters : ∀ {path : Path} {digits : String}, path.IsPlain →
      (∀ c ∈ digits.toList, c.isDigit = true) →
      (typeName path ++ digits).toList.takeWhile Char.isAlpha = (typeName path).toList := by
    intro path digits hp hd
    rw [String.toList_append, List.takeWhile_append_of_pos hp.isAlpha_typeName]
    cases hds : digits.toList with
    | nil => simp
    | cons c rest =>
      have hc : c.isDigit = true := hd c (hds ▸ List.mem_cons_self)
      simp [isAlpha_of_isDigit hc]
  refine eq_of_typeName_eq hp ho (String.toList_inj.mp ?_)
  rw [← letters hp hf, h, letters ho hs]

theorem IsPlain.words_cons (h : path.IsPlain) : ∃ word rest, path.words = word :: rest ∧
    (word = defaultRoot.toList ∨ word.head? = some 'K' ∨
      ∃ noun ∈ positionNouns, word = noun.toList) := by
  have hroot : titleCase defaultRoot = defaultRoot.toList := by decide
  unfold words
  cases hr : path.isRoot with
  | true => exact ⟨_, [], rfl, .inl (h.root ▸ hroot)⟩
  | false =>
    cases hs : path.segments with
    | nil => simp [isRoot, hs] at hr
    | cons segment rest =>
      have hplain := h.segments segment (hs ▸ List.mem_cons_self)
      exact ⟨_, _, rfl, .inr hplain.head_or_noun⟩

theorem IsPlain.typeName_append_ne (h : path.IsPlain) (hn : name ∈ documentName :: preludeNames)
    (after : String) : typeName path ++ after ≠ name := by
  rintro rfl
  obtain ⟨word, rest, hw, hword⟩ := h.words_cons
  have hprefix : word <+: (typeName path ++ after).toList := by
    rw [String.toList_append, h.toList_typeName, hw, List.flatten_cons, List.append_assoc]
    exact List.prefix_append _ _
  rcases hword with rfl | hk | ⟨noun, hnoun, rfl⟩
  · have roots : ∀ name ∈ documentName :: preludeNames, ¬ defaultRoot.toList <+: name.toList := by
      decide
    exact roots _ hn hprefix
  · have heads : ∀ name ∈ documentName :: preludeNames, name.toList.head? ≠ some 'K' := by decide
    obtain ⟨rest, hr⟩ := hprefix
    exact heads _ hn (by rw [← hr, List.head?_append, hk, Option.some_or])
  · have nouns : ∀ noun ∈ positionNouns, ∀ name ∈ documentName :: preludeNames,
        ¬ noun.toList <+: name.toList := by decide
    exact nouns noun hnoun _ hn hprefix

theorem IsPlain.isTypeName (h : path.IsPlain) (hd : ∀ c ∈ digits.toList, c.isDigit = true) :
    isTypeName (typeName path ++ digits) = true := by
  obtain ⟨word, rest, hw, -⟩ := h.words_cons
  obtain ⟨c, letters, rfl, hc, -⟩ := (h.isTitle word (hw ▸ List.mem_cons_self)).exists_cons
  have hname : (typeName path ++ digits).toList =
      c :: (letters ++ rest.flatten ++ digits.toList) := by
    rw [String.toList_append, h.toList_typeName, hw]
    simp
  have hall : ∀ d ∈ (typeName path ++ digits).toList, d.isAlphanum = true := by
    intro d hm
    rw [String.toList_append] at hm
    rcases List.mem_append.mp hm with hm | hm
    · exact isAlphanum_iff.mpr (.inl (h.isAlpha_typeName d hm))
    · exact isAlphanum_iff.mpr (.inr (hd d hm))
  rw [hname] at hall
  have hrest : ∀ d ∈ letters ++ rest.flatten ++ digits.toList,
      (d.isAlphanum || d = '_') = true := fun d hm => by
    rw [hall d (List.mem_cons_of_mem _ hm), Bool.true_or]
  simp only [ElmCodec.isTypeName, hname, hc, Bool.true_and]
  exact List.all_eq_true.mpr hrest

end Path

end ElmCodec
