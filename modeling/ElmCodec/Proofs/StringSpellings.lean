import ElmCodec.Json.Reader
import Mathlib.Data.List.Basic

/-!
# Spellings of strings

Between its quotes a string has a text for each of its characters: the character
itself, a short escape, or an escape of four hexadecimal digits for each of its
UTF-16 code units, so two of them beyond the first plane. Every such spelling is
read as the string.
-/

namespace ElmCodec.Json

def IsHexDigit (c : Char) (value : Nat) : Prop :=
  "0123456789abcdef".toList[value]? = some c ∨ "0123456789ABCDEF".toList[value]? = some c

instance (c : Char) (value : Nat) : Decidable (IsHexDigit c value) :=
  inferInstanceAs (Decidable (_ ∨ _))

/-- The escape of a UTF-16 code unit. -/
inductive UnitText : List Char → Nat → Prop
  | intro : IsHexDigit a i → IsHexDigit b j → IsHexDigit c k → IsHexDigit d l →
    UnitText ['\\', 'u', a, b, c, d] (((i * 16 + j) * 16 + k) * 16 + l)

def utf16 (c : Char) : List Nat :=
  if c.toNat < 0x10000 then [c.toNat]
  else [0xD800 + (c.toNat - 0x10000) / 0x400, 0xDC00 + (c.toNat - 0x10000) % 0x400]

def shortEscapes : List (Char × Char) :=
  [('"', '"'), ('\\', '\\'), ('/', '/'), ('b', '\x08'), ('f', '\x0c'), ('n', '\n'), ('r', '\r'),
    ('t', '\t')]

/-- What a character may be written as inside a string. -/
inductive CharText : List Char → Char → Prop
  | plain : ' ' ≤ c → c ≠ '"' → c ≠ '\\' → CharText [c] c
  | short : (mark, c) ∈ shortEscapes → CharText ['\\', mark] c
  | escaped : List.Forall₂ UnitText units (utf16 c) → CharText units.flatten c

def StringText (text : List Char) (value : String) : Prop :=
  ∃ parts, List.Forall₂ CharText parts value.toList ∧ text = '"' :: (parts.flatten ++ ['"'])

-- ---------------------------------------------------------------------------
-- Reading an escape
-- ---------------------------------------------------------------------------

theorem hexValue?_of_isHexDigit (h : IsHexDigit c value) : hexValue? c = some value := by
  have lower : ∀ i : Fin 16, "0123456789abcdef".toList[i.val]?.bind hexValue? = some i.val := by
    decide
  have upper : ∀ i : Fin 16, "0123456789ABCDEF".toList[i.val]?.bind hexValue? = some i.val := by
    decide
  rcases h with h | h
  · obtain ⟨hlt, -⟩ := List.getElem?_eq_some_iff.mp h
    exact (congrArg (·.bind hexValue?) h).symm.trans (lower ⟨value, hlt⟩)
  · obtain ⟨hlt, -⟩ := List.getElem?_eq_some_iff.mp h
    exact (congrArg (·.bind hexValue?) h).symm.trans (upper ⟨value, hlt⟩)

theorem readHex_text (h : UnitText text unit) (rest : List Char) :
    ∃ digits, text = '\\' :: 'u' :: digits ∧ readHex (digits ++ rest) = .ok (unit, rest) := by
  cases h with
  | @intro a i b j c k d l ha hb hc hd =>
    refine ⟨[a, b, c, d], rfl, ?_⟩
    have hbytes : ¬ byteCount [a, b, c, d] < 4 := by
      have := a.utf8Size_pos
      have := b.utf8Size_pos
      have := c.utf8Size_pos
      have := d.utf8Size_pos
      simp only [byteCount]
      omega
    simp [readHex, hbytes, hexValue?_of_isHexDigit ha, hexValue?_of_isHexDigit hb,
      hexValue?_of_isHexDigit hc, hexValue?_of_isHexDigit hd]

theorem not_surrogate (c : Char) :
    isLowSurrogate c.toNat = false ∧ isHighSurrogate c.toNat = false := by
  have hc : c.toNat = c.val.toNat := rfl
  simp only [isLowSurrogate, isHighSurrogate, Bool.and_eq_false_iff, decide_eq_false_iff_not]
  rcases c.valid with h | h <;> omega

theorem surrogates_utf16 {c : Char} (h : ¬ c.toNat < 0x10000) : ∃ high low,
    utf16 c = [high, low] ∧ isLowSurrogate high = false ∧ isHighSurrogate high = true ∧
      isLowSurrogate low = true ∧ ofSurrogates high low = c := by
  have hc : c.toNat = c.val.toNat := rfl
  have hlt : c.toNat < 0x110000 := by
    rcases c.valid with h | h <;> omega
  refine ⟨_, _, if_neg h, ?_, ?_, ?_, ?_⟩
  · simp only [isLowSurrogate, Bool.and_eq_false_iff, decide_eq_false_iff_not]
    omega
  · simp only [isHighSurrogate, Bool.and_eq_true, decide_eq_true_eq]
    omega
  · simp only [isLowSurrogate, Bool.and_eq_true, decide_eq_true_eq]
    omega
  · have hn : 0x10000 + (0xD800 + (c.toNat - 0x10000) / 0x400 - 0xD800) * 0x400 +
        (0xDC00 + (c.toNat - 0x10000) % 0x400 - 0xDC00) = c.toNat := by omega
    rw [ofSurrogates, hn, Char.ofNat_toNat]

theorem readEscape_units (h : List.Forall₂ UnitText units (utf16 c)) (rest : List Char) :
    ∃ after, units.flatten = '\\' :: after ∧ readEscape (after ++ rest) = .ok (c, rest) := by
  by_cases hc : c.toNat < 0x10000
  · rw [utf16, if_pos hc] at h
    cases h with
    | cons hu h =>
      cases h
      obtain ⟨digits, rfl, hread⟩ := readHex_text hu rest
      obtain ⟨hlow, hhigh⟩ := not_surrogate c
      refine ⟨'u' :: digits, by simp, ?_⟩
      simp [readEscape, hread, hlow, hhigh, bind, Except.bind]
  · obtain ⟨high, low, hunits, hnot, hhigh, hlow, rfl⟩ := surrogates_utf16 hc
    rw [hunits] at h
    cases h with
    | cons hu h =>
      cases h with
      | cons hv h =>
        cases h
        obtain ⟨others, rfl, hsecond⟩ := readHex_text hv rest
        obtain ⟨digits, rfl, hread⟩ := readHex_text hu ('\\' :: 'u' :: (others ++ rest))
        refine ⟨'u' :: (digits ++ '\\' :: 'u' :: others), by simp, ?_⟩
        simp [readEscape, readLowSurrogate, hread, hsecond, hnot, hhigh, hlow, bind, Except.bind]

theorem readEscape_short (h : (mark, c) ∈ shortEscapes) (rest : List Char) :
    readEscape (mark :: rest) = .ok (c, rest) := by
  simp only [shortEscapes, List.mem_cons, Prod.mk.injEq, List.not_mem_nil, or_false] at h
  rcases h with ⟨rfl, rfl⟩ | ⟨rfl, rfl⟩ | ⟨rfl, rfl⟩ | ⟨rfl, rfl⟩ | ⟨rfl, rfl⟩ | ⟨rfl, rfl⟩ |
    ⟨rfl, rfl⟩ | ⟨rfl, rfl⟩ <;> rfl

-- ---------------------------------------------------------------------------
-- Reading a string
-- ---------------------------------------------------------------------------

theorem CharText.length_pos (h : CharText text c) : 0 < text.length := by
  cases h with
  | plain => simp
  | short => simp
  | escaped h =>
    obtain ⟨after, he, -⟩ := readEscape_units h []
    simp [he]

theorem readCharacters_text (h : CharText text c) (fuel : Nat) (rest : List Char) :
    readCharacters (fuel + 1) (text ++ rest) =
      (readCharacters fuel rest).map fun (chars, rest) => (c :: chars, rest) := by
  cases h with
  | plain hspace hquote hback =>
    have hc : ¬ c < ' ' := Char.not_lt.mpr hspace
    simp only [List.singleton_append, readCharacters, hc, if_false]
    cases readCharacters fuel rest <;> rfl
  | short h =>
    simp only [List.cons_append, List.nil_append, readCharacters, readEscape_short h, bind,
      Except.bind]
    cases readCharacters fuel rest <;> rfl
  | escaped h =>
    obtain ⟨after, he, hread⟩ := readEscape_units h rest
    simp only [he, List.cons_append, readCharacters, hread, bind, Except.bind]
    cases readCharacters fuel rest <;> rfl

theorem readCharacters_flatten {parts : List (List Char)} (h : List.Forall₂ CharText parts chars)
    (hf : parts.flatten.length < fuel) (rest : List Char) :
    readCharacters fuel (parts.flatten ++ '"' :: rest) = .ok (chars, rest) := by
  induction h generalizing fuel with
  | nil =>
    cases fuel with
    | zero => simp at hf
    | succ fuel => rfl
  | @cons text c parts chars hc _ ih =>
    have hpos := hc.length_pos
    rw [List.flatten_cons, List.length_append] at hf
    cases fuel with
    | zero => simp at hf
    | succ fuel =>
      rw [List.flatten_cons, List.append_assoc, readCharacters_text hc, ih (by omega)]
      rfl

theorem readString_text {value : String} (h : StringText text value) (rest : List Char) :
    ∃ after, text = '"' :: after ∧ readString (after ++ rest) = .ok (value, rest) := by
  obtain ⟨parts, hparts, rfl⟩ := h
  refine ⟨_, rfl, ?_⟩
  rw [List.append_assoc, List.singleton_append, readString,
    readCharacters_flatten hparts (by rw [List.length_append, List.length_cons]; omega)]
  simp [bind, Except.bind]

end ElmCodec.Json
