import ElmCodec.Naming.Identifier
import Mathlib.Data.List.Nodup

/-!
# Names of list positions

What a list position adds to a type name tells the position, for lists of any
length: the nouns differ from each other and from every number, and no noun
ends in `Object`, the noun of the first item, but that one. So no two items of
a list have a type name in common, nor do the first items inside of them.
-/

namespace ElmCodec

-- ---------------------------------------------------------------------------
-- Letters of a position
-- ---------------------------------------------------------------------------

theorem isAlpha_of_isDigit {c : Char} (h : c.isDigit) : c.isAlpha = false := by
  have : '9'.val.toNat = 57 := rfl
  have : 'A'.val.toNat = 65 := rfl
  have : 'a'.val.toNat = 97 := rfl
  have hu : c.isUpper = decide (c.val ≥ 'A'.val ∧ c.val ≤ 'Z'.val) := rfl
  have hl : c.isLower = (decide (c.val ≥ 'a'.val) && decide (c.val ≤ 'z'.val)) := rfl
  have ha : c.isAlpha = (c.isUpper || c.isLower) := rfl
  rw [ha, hu, hl]
  simp only [Char.isDigit, Bool.and_eq_true, Bool.or_eq_false_iff, Bool.and_eq_false_iff,
    decide_eq_true_eq, decide_eq_false_iff_not, UInt32.le_iff_toNat_le, ge_iff_le] at h ⊢
  omega

theorem toUpper_of_isDigit {c : Char} (h : c.isDigit) : c.toUpper = c := by
  have : '9'.val.toNat = 57 := rfl
  have : 'a'.val.toNat = 97 := rfl
  simp only [Char.isDigit, Bool.and_eq_true, decide_eq_true_eq, UInt32.le_iff_toNat_le,
    ge_iff_le] at h
  have hn : ¬ ('a'.val ≤ c.val ∧ c.val ≤ 'z'.val) := by
    simp only [UInt32.le_iff_toNat_le]
    omega
  exact dif_neg hn

theorem Word.scan_digits {text : List Char} (h : ∀ c ∈ text, c.isDigit) (lower : Bool) :
    scan lower text = (text, []) := by
  induction text generalizing lower with
  | nil => rfl
  | cons c rest ih =>
    obtain ⟨hc, hr⟩ := List.forall_mem_cons.mp h
    have hu : c.isUpper = false := (Bool.or_eq_false_iff.mp (isAlpha_of_isDigit hc)).1
    simp [scan, Char.isAlphanum, hc, hu, ih hr]

theorem titleCase_digits {text : String} (hne : text.toList ≠ [])
    (h : ∀ c ∈ text.toList, c.isDigit) : titleCase text = text.toList := by
  cases ht : text.toList with
  | nil => exact absurd ht hne
  | cons c rest =>
    rw [ht] at h
    simp [titleCase, Word.split, ht, Word.scan_digits h, Word.title, Word.capitalize,
      toUpper_of_isDigit (h c List.mem_cons_self)]

def positionLetters (index : Nat) : List Char := (Segment.position index).label.toList

theorem positionLetters_noun (h : index < positionNouns.length) :
    positionLetters index = positionNouns[index].toList := by
  simp [positionLetters, Segment.label, List.getD_eq_getElem?_getD, h]

theorem positionLetters_number (h : ¬ index < positionNouns.length) :
    positionLetters index = Nat.toDigits 10 index := by
  simp [positionLetters, Segment.label, List.getD_eq_getElem?_getD, h, toString]

theorem isDigit_of_mem_positionLetters (h : ¬ index < positionNouns.length)
    (hc : c ∈ positionLetters index) : c.isDigit := by
  rw [positionLetters_number h] at hc
  exact Nat.isDigit_of_mem_toDigits (by decide) (by decide) hc

theorem noun_mem {index : Nat} (h : index < positionNouns.length) :
    positionNouns[index] ∈ positionNouns := List.getElem_mem h

theorem positionLetters_ne_nil (index : Nat) : positionLetters index ≠ [] := by
  by_cases h : index < positionNouns.length
  · rw [positionLetters_noun h]
    exact (by decide : ∀ noun ∈ positionNouns, noun.toList ≠ []) _ (noun_mem h)
  · rw [positionLetters_number h]
    exact Nat.toDigits_ne_nil

theorem titleCase_position (index : Nat) :
    titleCase (Segment.position index).label = positionLetters index := by
  by_cases h : index < positionNouns.length
  · have hl : (Segment.position index).label = positionNouns[index] := by
      simp [Segment.label, List.getD_eq_getElem?_getD, h]
    rw [positionLetters, hl]
    exact (by decide : ∀ noun ∈ positionNouns, titleCase noun = noun.toList) _ (noun_mem h)
  · exact titleCase_digits (positionLetters_ne_nil index)
      fun c hc => isDigit_of_mem_positionLetters h hc

theorem positionLetters_noun_ne_number (hi : i < positionNouns.length)
    (hj : ¬ j < positionNouns.length) : positionLetters i ≠ positionLetters j := by
  intro h
  have head : ∀ noun ∈ positionNouns, noun.toList.any fun c => !c.isDigit := by decide
  obtain ⟨c, hc, hd⟩ := List.any_eq_true.mp (head _ (noun_mem hi))
  rw [← positionLetters_noun hi, h] at hc
  simp [isDigit_of_mem_positionLetters hj hc] at hd

theorem positionLetters_injective (h : positionLetters i = positionLetters j) : i = j := by
  by_cases hi : i < positionNouns.length <;> by_cases hj : j < positionNouns.length
  · rw [positionLetters_noun hi, positionLetters_noun hj, String.toList_inj] at h
    exact (List.Nodup.getElem_inj_iff (by decide)).mp h
  · exact absurd h (positionLetters_noun_ne_number hi hj)
  · exact absurd h.symm (positionLetters_noun_ne_number hj hi)
  · rw [positionLetters_number hi, positionLetters_number hj] at h
    rw [← Nat.ofDigitChars_ten_toDigits (n := i), h, Nat.ofDigitChars_ten_toDigits]

theorem eq_nil_of_positionLetters_eq (h : positionLetters i = letters ++ positionLetters 0) :
    letters = [] := by
  by_cases hi : i < positionNouns.length
  · have whole : ∀ noun ∈ positionNouns,
        positionLetters 0 <:+ noun.toList → noun.toList.length = (positionLetters 0).length := by
      decide
    have hlen := whole _ (noun_mem hi) ⟨letters, by rw [← h, positionLetters_noun hi]⟩
    rw [← positionLetters_noun hi, h, List.length_append] at hlen
    exact List.length_eq_zero_iff.mp (by omega)
  · have ht : 't' ∈ positionLetters i := by
      rw [h]
      exact List.mem_append_right _ (by decide)
    exact absurd (isDigit_of_mem_positionLetters hi ht) (by decide)

-- ---------------------------------------------------------------------------
-- Names below a position
-- ---------------------------------------------------------------------------

/-- The letters of a position and of first items `depth` lists below it. -/
def firstLetters (index depth : Nat) : List Char :=
  positionLetters index ++ (List.replicate depth (positionLetters 0)).flatten

theorem firstLetters_injective (h : firstLetters i m = firstLetters j n) : i = j := by
  -- The side with fewer first items keeps letters of its own when both lose the same number.
  have shorter : ∀ {i j m k : Nat}, firstLetters i m = firstLetters j (k + m) → i = j := by
    intro i j m k h
    rw [firstLetters, firstLetters, List.replicate_add, List.flatten_append, ← List.append_assoc]
      at h
    have h := List.append_cancel_right h
    cases k with
    | zero => exact positionLetters_injective (by simpa using h)
    | succ k =>
      rw [List.replicate_succ', List.flatten_append, ← List.append_assoc] at h
      have hnil : positionLetters j ++ (List.replicate k (positionLetters 0)).flatten = [] :=
        eq_nil_of_positionLetters_eq (i := i) (by simpa using h)
      exact absurd (List.append_eq_nil_iff.mp hnil).1 (positionLetters_ne_nil j)
  rcases Nat.le_total m n with hmn | hnm
  · exact shorter (k := n - m) (by rwa [Nat.sub_add_cancel hmn])
  · exact (shorter (k := m - n) (by rw [Nat.sub_add_cancel hnm, h])).symm

theorem firstLetters_cons (index depth : Nat) :
    ∃ c rest, firstLetters index depth = c :: rest ∧ c ∈ positionLetters index := by
  cases hp : positionLetters index with
  | nil => exact absurd hp (positionLetters_ne_nil index)
  | cons c rest => exact ⟨c, _, by rw [firstLetters, hp, List.cons_append], List.mem_cons_self⟩

theorem withItem_firstLetters_noun (h : i < positionNouns.length) (depth : Nat) :
    withItem (firstLetters i depth) = firstLetters i depth := by
  obtain ⟨c, rest, hc, hm⟩ := firstLetters_cons i depth
  rw [positionLetters_noun h] at hm
  have alpha : ∀ noun ∈ positionNouns, noun.toList.all Char.isAlpha := by decide
  simp [hc, withItem, List.all_eq_true.mp (alpha _ (noun_mem h)) c hm]

theorem withItem_firstLetters_number (h : ¬ i < positionNouns.length) (depth : Nat) :
    withItem (firstLetters i depth) = "Item".toList ++ firstLetters i depth := by
  obtain ⟨c, rest, hc, hm⟩ := firstLetters_cons i depth
  simp [hc, withItem, isAlpha_of_isDigit (isDigit_of_mem_positionLetters h hm)]

/-- A number goes behind `Item`, and no noun starts that way. -/
theorem withItem_firstLetters_ne (hi : i < positionNouns.length) (hj : ¬ j < positionNouns.length)
    (m n : Nat) : withItem (firstLetters i m) ≠ withItem (firstLetters j n) := by
  rw [withItem_firstLetters_noun hi, withItem_firstLetters_number hj]
  intro h
  have start : ∀ noun ∈ positionNouns, noun.toList.take 2 ≠ "Item".toList.take 2 ∧
      2 ≤ noun.toList.length := by decide
  obtain ⟨hne, hlen⟩ := start _ (noun_mem hi)
  have h := congrArg (List.take 2) h
  rw [firstLetters, positionLetters_noun hi, List.take_append_of_le_length hlen,
    List.take_append_of_le_length (by decide)] at h
  exact hne h

theorem withItem_append_injective (before : List Char)
    (h : withItem (before ++ firstLetters i m) = withItem (before ++ firstLetters j n)) :
    i = j := by
  cases before with
  | nil =>
    simp only [List.nil_append] at h
    by_cases hi : i < positionNouns.length <;> by_cases hj : j < positionNouns.length
    · rw [withItem_firstLetters_noun hi, withItem_firstLetters_noun hj] at h
      exact firstLetters_injective h
    · exact absurd h (withItem_firstLetters_ne hi hj m n)
    · exact absurd h.symm (withItem_firstLetters_ne hj hi n m)
    · rw [withItem_firstLetters_number hi, withItem_firstLetters_number hj] at h
      exact firstLetters_injective (List.append_cancel_left h)
  | cons c rest =>
    -- The letters in front are the same, so `Item` stands before both or before neither.
    simp only [List.cons_append, withItem] at h
    split at h
    · exact firstLetters_injective (by simpa using h)
    · exact firstLetters_injective (by simpa using h)

def Path.firsts (path : Path) : Nat → Path
  | 0 => path
  | depth + 1 => (path.position 0).firsts depth

theorem Path.segments_firsts (path : Path) (depth : Nat) :
    (path.firsts depth).segments = path.segments ++ List.replicate depth (.position 0) := by
  induction depth generalizing path with
  | zero => simp [firsts]
  | succ depth ih => simp [firsts, ih, position, child, List.replicate_succ]

theorem typeName_firsts (path : Path) (index depth : Nat) :
    typeName ((path.position index).firsts depth) =
      String.ofList (withItem
        (path.segments.flatMap (fun segment => titleCase segment.label) ++
          firstLetters index depth)) := by
  have hs : ((path.position index).firsts depth).segments =
      path.segments ++ .position index :: List.replicate depth (.position 0) := by
    simp [Path.segments_firsts, Path.position, Path.child]
  simp only [typeName, Path.isRoot, hs]
  simp [titleCase_position, firstLetters, List.flatMap]

/-- The items of a list, and the first items below them, have different names. -/
theorem position_eq_of_typeName_eq {path : Path}
    (h : typeName ((path.position i).firsts m) = typeName ((path.position j).firsts n)) :
    i = j := by
  rw [typeName_firsts, typeName_firsts, String.ofList_inj] at h
  exact withItem_append_injective _ h

/-- Two positions in a row are not told apart: `16`, `1617` and `1616`, `17` spell one name. -/
example : typeName (((Path.ofRoot "Root").position 16).position 1617) =
    typeName (((Path.ofRoot "Root").position 1616).position 17) := by decide +kernel

end ElmCodec
