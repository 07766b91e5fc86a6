import ElmCodec.Naming.Identifier
import Mathlib.Data.List.Basic

/-!
# Letters of names

Names are made of ASCII letters and digits only, whatever text they come from:
words have no other characters, and capitals and `Item` are letters.
-/

namespace ElmCodec

section
variable {c : Char}

theorem isUpper_iff : c.isUpper = true ↔ 65 ≤ c.toNat ∧ c.toNat ≤ 90 := by
  have h : c.isUpper = decide (c.val ≥ 'A'.val ∧ c.val ≤ 'Z'.val) := rfl
  rw [h, decide_eq_true_iff, ge_iff_le, UInt32.le_iff_toNat_le, UInt32.le_iff_toNat_le]
  exact Iff.rfl

theorem isLower_iff : c.isLower = true ↔ 97 ≤ c.toNat ∧ c.toNat ≤ 122 := by
  have h : c.isLower = (decide (c.val ≥ 'a'.val) && decide (c.val ≤ 'z'.val)) := rfl
  rw [h, Bool.and_eq_true, decide_eq_true_iff, decide_eq_true_iff, ge_iff_le,
    UInt32.le_iff_toNat_le, UInt32.le_iff_toNat_le]
  exact Iff.rfl

theorem isDigit_iff : c.isDigit = true ↔ 48 ≤ c.toNat ∧ c.toNat ≤ 57 := by
  have h : c.isDigit = (decide (c.val ≥ '0'.val) && decide (c.val ≤ '9'.val)) := rfl
  rw [h, Bool.and_eq_true, decide_eq_true_iff, decide_eq_true_iff, ge_iff_le,
    UInt32.le_iff_toNat_le, UInt32.le_iff_toNat_le]
  exact Iff.rfl

theorem isAlpha_iff : c.isAlpha = true ↔ c.isUpper = true ∨ c.isLower = true :=
  Bool.or_eq_true_iff

theorem isAlphanum_iff : c.isAlphanum = true ↔ c.isAlpha = true ∨ c.isDigit = true :=
  Bool.or_eq_true_iff

theorem isLower_of_isUpper (h : c.isUpper = true) : c.isLower = false := by
  cases hl : c.isLower with
  | false => rfl
  | true =>
    rw [isUpper_iff] at h
    rw [isLower_iff] at hl
    omega

theorem isUpper_of_isLower (h : c.isLower = true) : c.isUpper = false := by
  cases hu : c.isUpper with
  | true => simp [isLower_of_isUpper hu] at h
  | false => rfl

theorem isDigit_of_isLower (h : c.isLower = true) : c.isDigit = false := by
  cases hd : c.isDigit with
  | false => rfl
  | true =>
    rw [isLower_iff] at h
    rw [isDigit_iff] at hd
    omega

theorem isUpper_of_isDigit (h : c.isDigit = true) : c.isUpper = false := by
  cases hu : c.isUpper with
  | false => rfl
  | true =>
    rw [isDigit_iff] at h
    rw [isUpper_iff] at hu
    omega

theorem isLower_or_isDigit (h : c.isAlphanum = true) (hu : c.isUpper = false) :
    (c.isLower || c.isDigit) = true := by
  rw [isAlphanum_iff, isAlpha_iff, hu] at h
  simpa using h

theorem toLower_of_isUpper_eq_false (h : c.isUpper = false) : c.toLower = c := by
  have hu : c.isUpper = decide (c.val ≥ 'A'.val ∧ c.val ≤ 'Z'.val) := rfl
  rw [hu, decide_eq_false_iff_not] at h
  exact dif_neg h

theorem toUpper_of_isLower_eq_false (h : c.isLower = false) : c.toUpper = c := by
  have hl : c.isLower = (decide (c.val ≥ 'a'.val) && decide (c.val ≤ 'z'.val)) := rfl
  rw [hl, Bool.and_eq_false_iff, decide_eq_false_iff_not, decide_eq_false_iff_not] at h
  exact dif_neg fun hc => h.elim (absurd hc.1) (absurd hc.2)

theorem toNat_lt_of_isAlphanum (h : c.isAlphanum = true) : c.toNat < 128 := by
  rw [isAlphanum_iff, isAlpha_iff, isUpper_iff, isLower_iff, isDigit_iff] at h
  omega

end

theorem of_isAlphanum {p : Char → Prop} {c : Char} (h : c.isAlphanum = true)
    (hp : ∀ n : Fin 128, (Char.ofNat n).isAlphanum = true → p (Char.ofNat n)) : p c := by
  have hc := hp ⟨c.toNat, toNat_lt_of_isAlphanum h⟩
  simp only [Char.ofNat_toNat] at hc
  exact hc h

theorem isAlphanum_toUpper {c : Char} (h : c.isAlphanum = true) : c.toUpper.isAlphanum = true :=
  of_isAlphanum (p := fun c => c.toUpper.isAlphanum = true) h (by decide)

def Alphanumeric (letters : List Char) : Prop := ∀ c ∈ letters, c.isAlphanum = true

instance (letters : List Char) : Decidable (Alphanumeric letters) :=
  decidable_of_iff (letters.all Char.isAlphanum = true) List.all_eq_true

theorem Alphanumeric.cons (hc : c.isAlphanum = true) (h : Alphanumeric letters) :
    Alphanumeric (c :: letters) :=
  List.forall_mem_cons.mpr ⟨hc, h⟩

theorem Alphanumeric.append (hf : Alphanumeric first) (hs : Alphanumeric second) :
    Alphanumeric (first ++ second) :=
  List.forall_mem_append.mpr ⟨hf, hs⟩

theorem Word.alphanumeric_scan (lower : Bool) (text : List Char) :
    Alphanumeric (scan lower text).1 ∧ ∀ word ∈ (scan lower text).2, Alphanumeric word := by
  induction text generalizing lower with
  | nil => exact ⟨nofun, nofun⟩
  | cons c rest ih =>
    simp only [scan]
    split
    · obtain ⟨hw, hr⟩ := ih false
      split
      · rename_i he
        rw [he] at hr
        exact ⟨nofun, hr⟩
      · rename_i he
        rw [he] at hw hr
        exact ⟨nofun, List.forall_mem_cons.mpr ⟨hw, hr⟩⟩
    · rename_i hc
      have hc : c.isAlphanum = true := by simpa using hc
      split
      · obtain ⟨hw, hr⟩ := ih false
        exact ⟨nofun, List.forall_mem_cons.mpr ⟨hw.cons hc, hr⟩⟩
      · obtain ⟨hw, hr⟩ := ih (c.isLower || c.isDigit)
        exact ⟨hw.cons hc, hr⟩

theorem Word.alphanumeric_split (text : List Char) : ∀ word ∈ split text, Alphanumeric word := by
  obtain ⟨hw, hr⟩ := alphanumeric_scan false text
  unfold split
  split
  · rename_i he
    rw [he] at hr
    exact hr
  · rename_i he
    rw [he] at hw hr
    exact List.forall_mem_cons.mpr ⟨hw, hr⟩

theorem Word.alphanumeric_capitalize (h : Alphanumeric word) : Alphanumeric (capitalize word) := by
  cases word with
  | nil => exact h
  | cons c rest =>
    obtain ⟨hc, hr⟩ := List.forall_mem_cons.mp h
    exact Alphanumeric.cons (isAlphanum_toUpper hc) hr

theorem alphanumeric_titleCase (text : String) : Alphanumeric (titleCase text) := by
  intro c hc
  obtain ⟨word, hw, hc⟩ := List.mem_flatMap.mp hc
  exact Word.alphanumeric_capitalize (Word.alphanumeric_split _ word hw) c hc

theorem alphanumeric_withItem (h : Alphanumeric letters) : Alphanumeric (withItem letters) := by
  have hitem : Alphanumeric "Item".toList := by decide
  unfold withItem
  split
  · split
    · exact h
    · exact hitem.append h
  · exact hitem

theorem alphanumeric_segments (segments : List Segment) :
    Alphanumeric (segments.flatMap fun segment => titleCase segment.label) := by
  intro c hc
  obtain ⟨segment, -, hc⟩ := List.mem_flatMap.mp hc
  exact alphanumeric_titleCase segment.label c hc

theorem alphanumeric_typeName (path : Path) : Alphanumeric (typeName path).toList := by
  unfold typeName
  split
  · rw [String.toList_ofList]
    exact alphanumeric_titleCase path.root
  · rw [String.toList_ofList]
    exact alphanumeric_withItem (alphanumeric_segments path.segments)

/-- Letters that start with a capital or a digit, if with any. -/
def Capital (letters : List Char) : Prop := ∀ c ∈ letters.head?, c.isLower = false

theorem Capital.flatMap {f : α → List Char} {l : List α} (h : ∀ a ∈ l, Capital (f a)) :
    Capital (l.flatMap f) := by
  intro c hc
  rw [List.head?_flatMap] at hc
  obtain ⟨a, ha, hc⟩ := List.exists_of_findSome?_eq_some hc
  exact h a ha c hc

theorem isLower_toUpper {c : Char} (h : c.isAlphanum = true) : c.toUpper.isLower = false :=
  of_isAlphanum (p := fun c => c.toUpper.isLower = false) h (by decide)

theorem Word.capital_capitalize (h : Alphanumeric word) : Capital (capitalize word) := by
  cases word with
  | nil => exact nofun
  | cons c rest =>
    rintro _ ⟨⟩
    exact isLower_toUpper (h c List.mem_cons_self)

theorem capital_titleCase (text : String) : Capital (titleCase text) :=
  .flatMap fun word hw => Word.capital_capitalize (Word.alphanumeric_split _ word hw)

theorem exists_cons_withItem (ha : Alphanumeric letters) (hc : Capital letters) :
    ∃ c rest, withItem letters = c :: rest ∧ c.isUpper = true := by
  unfold withItem
  split
  · rename_i c rest
    split
    · rename_i halpha
      rcases isAlpha_iff.mp halpha with hu | hl
      · exact ⟨c, rest, rfl, hu⟩
      · simp [hc c rfl] at hl
    · exact ⟨'I', _, rfl, rfl⟩
  · exact ⟨'I', _, rfl, rfl⟩

theorem exists_cons_typeName {path : Path} (h : path.isRoot = false) :
    ∃ c rest, (typeName path).toList = c :: rest ∧ c.isUpper = true ∧ Alphanumeric rest := by
  have ha := alphanumeric_typeName path
  simp only [typeName, h, Bool.false_eq_true, if_false, String.toList_ofList] at ha ⊢
  have hcap : Capital (path.segments.flatMap fun segment => titleCase segment.label) :=
    .flatMap fun segment _ => capital_titleCase segment.label
  obtain ⟨c, rest, hc, hu⟩ := exists_cons_withItem (alphanumeric_segments path.segments) hcap
  rw [hc] at ha
  exact ⟨c, rest, hc, hu, (List.forall_mem_cons.mp ha).2⟩

theorem isTypeName_typeName {path : Path} (h : path.isRoot = false) :
    isTypeName (typeName path) = true := by
  obtain ⟨c, rest, hc, hu, hr⟩ := exists_cons_typeName h
  simp only [isTypeName, hc, hu, Bool.true_and, List.all_eq_true]
  intro d hd
  simp [hr d hd]

end ElmCodec
