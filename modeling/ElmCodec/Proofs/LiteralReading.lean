import ElmCodec.Elm.Decoder
import ElmCodec.Elm.Encoder
import ElmCodec.Json.Reader
import Mathlib.Data.List.TakeWhile

/-!
# Reading Elm string literals

A literal goes from its quote to the next quote that no backslash stands before.
It has escapes for quotes, backslashes, line breaks and tabs, and for any
character by its code point in braces. A control character cannot stand in it.
What is written for a text is read as that text, whatever code follows, so no key
of a document can end its literal early.
-/

namespace ElmCodec

namespace Literal

def codePoint (digits : List Char) : Nat :=
  digits.foldl (fun code digit => 16 * code + (Json.hexValue? digit).getD 0) 0

/-- A code point of 4 to 6 digits, up to the closing brace. -/
def readCode (text : List Char) : Option (Char × List Char) :=
  let digits := text.takeWhile fun c => (Json.hexValue? c).isSome
  match text.drop digits.length with
  | '}' :: rest =>
    if 4 ≤ digits.length ∧ digits.length ≤ 6 ∧ (codePoint digits).isValidChar then
      some (Char.ofNat (codePoint digits), rest)
    else none
  | _ => none

def escaped? : Char → Option Char
  | '"' => some '"'
  | '\\' => some '\\'
  | 'n' => some '\n'
  | 'r' => some '\r'
  | 't' => some '\t'
  | _ => none

def readChar : List Char → Option (Char × List Char)
  | [] => none
  | '\\' :: 'u' :: '{' :: rest => readCode rest
  | '\\' :: mark :: rest => (escaped? mark).map fun c => (c, rest)
  | c :: rest => if c = '"' ∨ c = '\\' ∨ isControl c then none else some (c, rest)

theorem length_readCode (h : readCode text = some (c, rest)) : rest.length < text.length := by
  simp only [readCode] at h
  split at h
  · rename_i after hd
    have hl := congrArg List.length hd
    rw [List.length_drop, List.length_cons] at hl
    split at h
    · cases h
      omega
    · cases h
  · cases h

theorem length_readChar (h : readChar text = some (c, rest)) : rest.length < text.length := by
  unfold readChar at h
  split at h
  · cases h
  · rename_i code
    have hl := length_readCode h
    simp only [List.length_cons]
    omega
  · obtain ⟨_, -, h⟩ := Option.map_eq_some_iff.mp h
    cases h
    simp only [List.length_cons]
    omega
  · split at h
    · cases h
    · cases h
      simp

def readText (text : List Char) : Option (List Char × List Char) :=
  match text with
  | '"' :: rest => some ([], rest)
  | text =>
    match _h : readChar text with
    | some (c, rest) => (readText rest).map fun (chars, after) => (c :: chars, after)
    | none => none
termination_by text.length
decreasing_by exact length_readChar _h

end Literal

/-- The text of the literal at the start of `code`, and the code behind the literal. -/
def readLiteral (code : String) : Option (String × String) :=
  match code.toList with
  | '"' :: rest =>
    (Literal.readText rest).map fun (chars, after) => (String.ofList chars, String.ofList after)
  | _ => none

namespace Literal

-- ---------------------------------------------------------------------------
-- Escapes
-- ---------------------------------------------------------------------------

theorem code_lt_of_isControl (h : isControl c = true) : c.toNat < 160 := by
  simp only [isControl, Bool.or_eq_true, Bool.and_eq_true, decide_eq_true_eq] at h
  omega

theorem hexCode_of_isControl (h : isControl c = true) :
    (hexCode c.toNat).length = 4 ∧ codePoint (hexCode c.toNat) = c.toNat ∧
      ∀ digit ∈ hexCode c.toNat,
        (Json.hexValue? digit).isSome = true ∧ isControl digit = false := by
  have hall : ∀ code : Fin 160, (hexCode code).length = 4 ∧ codePoint (hexCode code) = code ∧
      (hexCode code).all
        (fun digit => (Json.hexValue? digit).isSome && !isControl digit) = true := by
    decide +kernel
  obtain ⟨hl, hc, hd⟩ := hall ⟨c.toNat, code_lt_of_isControl h⟩
  refine ⟨hl, hc, fun digit hm => ?_⟩
  simpa using List.all_eq_true.mp hd digit hm

theorem readCode_digits (hd : ∀ digit ∈ digits, (Json.hexValue? digit).isSome = true)
    (hl : digits.length = 4) (hc : codePoint digits = c.toNat) (rest : List Char) :
    readCode (digits ++ '}' :: rest) = some (c, rest) := by
  have ht : (digits ++ '}' :: rest).takeWhile (fun c => (Json.hexValue? c).isSome) = digits := by
    have hb : (Json.hexValue? '}').isSome = false := rfl
    rw [List.takeWhile_append_of_pos hd, List.takeWhile_cons, hb]
    simp
  have hv : c.toNat.isValidChar := c.valid
  simp [readCode, ht, hl, hc, hv]

theorem readChar_literalChar (c : Char) (rest : List Char) :
    readChar (literalChar c ++ rest) = some (c, rest) := by
  unfold literalChar
  split_ifs with hquote hslash hn hr ht hcontrol
  · rw [hquote]; rfl
  · rw [hslash]; rfl
  · rw [hn]; rfl
  · rw [hr]; rfl
  · rw [ht]; rfl
  · obtain ⟨hl, hc, hd⟩ := hexCode_of_isControl hcontrol
    have hread := readCode_digits (fun digit hm => (hd digit hm).1) hl hc rest
    simpa [readChar] using hread
  · simp [readChar, hquote, hslash, hcontrol]

theorem readText_char (h : readChar text = some (c, rest)) :
    readText text = (readText rest).map fun (chars, after) => (c :: chars, after) := by
  rw [readText.eq_def text]
  split
  · simp [readChar] at h
  · split
    · rename_i hc
      cases hc.symm.trans h
      rfl
    · rename_i hn
      cases hn.symm.trans h

theorem readText_flatMap (chars rest : List Char) :
    readText (chars.flatMap literalChar ++ '"' :: rest) = some (chars, rest) := by
  induction chars with
  | nil => rw [List.flatMap_nil, List.nil_append, readText]
  | cons c chars ih =>
    rw [List.flatMap_cons, List.append_assoc, readText_char (readChar_literalChar c _), ih]
    rfl

theorem isControl_literalChar (c : Char) : ∀ d ∈ literalChar c, isControl d = false := by
  have hescape : ∀ {mark}, isControl mark = false → ∀ d ∈ ['\\', mark], isControl d = false :=
    fun hm => List.forall_mem_cons.mpr ⟨rfl, List.forall_mem_singleton.mpr hm⟩
  unfold literalChar
  split_ifs with hquote hslash hn hr ht hcontrol
  · exact hescape rfl
  · exact hescape rfl
  · exact hescape rfl
  · exact hescape rfl
  · exact hescape rfl
  · obtain ⟨-, -, hd⟩ := hexCode_of_isControl hcontrol
    intro d hm
    simp only [List.cons_append, List.mem_cons, List.mem_append, List.not_mem_nil, or_false] at hm
    rcases hm with rfl | rfl | rfl | hm | rfl
    · rfl
    · rfl
    · rfl
    · exact (hd d hm).2
    · rfl
  · simpa using hcontrol

end Literal

theorem isControl_literal (text : String) : ∀ c ∈ (literal text).toList, isControl c = false := by
  intro c hc
  simp only [literal, String.toList_ofList, List.mem_cons, List.cons_append, List.mem_append,
    List.mem_flatMap, List.not_mem_nil, or_false] at hc
  rcases hc with rfl | ⟨d, -, hc⟩ | rfl
  · rfl
  · exact Literal.isControl_literalChar d c hc
  · rfl

theorem readLiteral_append (text rest : String) :
    readLiteral (literal text ++ rest) = some (text, rest) := by
  have hcode : (literal text ++ rest).toList =
      '"' :: (text.toList.flatMap literalChar ++ '"' :: rest.toList) := by
    simp [literal, String.toList_append]
  simp [readLiteral, hcode, Literal.readText_flatMap]

theorem literal_injective : Function.Injective literal := by
  intro first second h
  have hread := readLiteral_append first ""
  rw [h, readLiteral_append second ""] at hread
  cases hread
  rfl

/-- The literal of a text is read as the text, and the code behind it is left as it is. So
texts differ from each other in their literals, and keys end where the code around them
goes on. No control character stands in a literal. -/
theorem readLiteral_literal :
    (∀ text rest : String, readLiteral (literal text ++ rest) = some (text, rest)) ∧
      Function.Injective literal ∧
      (∀ key decoder, ∃ code, DecoderBody.fieldText (key, decoder) = "(Json.Decode.field " ++ code ∧
        readLiteral code = some (key, " " ++ decoder.text ++ ")")) ∧
      (∀ field : FieldEncoder, ∃ code, EncoderBody.fieldText field = "( " ++ code ∧
        readLiteral code =
          some (field.key, ", " ++ field.encoder.text ++ " record." ++ field.identifier ++ " )")) ∧
      ∀ text, ∀ c ∈ (literal text).toList, isControl c = false := by
  refine ⟨readLiteral_append, literal_injective, fun key decoder => ?_, fun field => ?_,
    isControl_literal⟩
  · refine ⟨literal key ++ (" " ++ decoder.text ++ ")"), ?_, readLiteral_append _ _⟩
    unfold DecoderBody.fieldText
    simp only [String.append_assoc]
  · refine ⟨literal field.key ++
      (", " ++ field.encoder.text ++ " record." ++ field.identifier ++ " )"), ?_,
      readLiteral_append _ _⟩
    unfold EncoderBody.fieldText
    simp only [String.append_assoc]

/-- A key that looks like the end of its literal, with a control character. -/
theorem readLiteral_literal_quote :
    literal "a\\\" )\x7f" = "\"a\\\\\\\" )\\u\x7b007F\x7d\"" ∧
      readLiteral (literal "a\\\" )\x7f" ++ " Json.Decode.bool)") =
        some ("a\\\" )\x7f", " Json.Decode.bool)") ∧
      '\\' ∈ (literal "a\\\" )\x7f").toList ∧ isControl '\\' = false := by
  have h : '\\' ∈ (literal "a\\\" )\x7f").toList := by decide +kernel
  obtain ⟨hread, -, -, -, hcontrol⟩ := readLiteral_literal
  exact ⟨by decide +kernel, hread _ _, h, hcontrol _ _ h⟩

end ElmCodec
