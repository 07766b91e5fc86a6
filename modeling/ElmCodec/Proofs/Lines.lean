import ElmCodec.Elm.Program
import ElmCodec.Proofs.Blocks
import ElmCodec.Proofs.FieldNames
import ElmCodec.Proofs.Labels
import ElmCodec.Proofs.LiteralReading

/-!
# Lines of generated code

Elm reads declarations off the margin: a line that is not indented starts one. A
text is laid out in lines that are indented or declaration heads, with at most one
blank line between two of them, so it is a block of its own among others.
-/

namespace ElmCodec

-- ---------------------------------------------------------------------------
-- Lines
-- ---------------------------------------------------------------------------

def OneLine (text : String) : Prop := '\n' ∉ text.toList

instance : Decidable (OneLine text) := inferInstanceAs (Decidable ('\n' ∉ text.toList))

@[simp] theorem oneLine_append :
    OneLine (first ++ second) ↔ OneLine first ∧ OneLine second := by
  rw [OneLine, String.toList_append, List.mem_append, not_or]
  rfl

def Indented (line : String) : Prop := "    ".toList <+: line.toList

instance : Decidable (Indented line) := inferInstanceAs (Decidable ("    ".toList <+: line.toList))

theorem Indented.append (h : Indented first) (second : String) : Indented (first ++ second) := by
  rw [Indented, String.toList_append]
  exact h.trans (List.prefix_append _ _)

/-- The unindented lines of a declaration: the first line of a type, and the
signature and the definition line of a decoder or an encoder. -/
inductive IsHead : String → Prop
  | union : isTypeName name = true → IsHead ("type " ++ name)
  | record : isTypeName name = true → IsHead ("type alias " ++ name ++ " =")
  | decoderType {label : Label} : isTypeName name = true →
      (∀ type ∈ label.names, isTypeName type = true) →
      IsHead (Decoder.definitionName name ++ " : Json.Decode.Decoder " ++ label.atom)
  | decoder : isTypeName name = true → IsHead (Decoder.definitionName name ++ " =")
  | encoderType {label : Label} : isTypeName name = true →
      (∀ type ∈ label.names, isTypeName type = true) →
      IsHead (Encoder.definitionName name ++ " : " ++ label.text ++ " -> Json.Encode.Value")
  | encoder : isTypeName name = true → arguments ∈ ["", " _", " record", " value"] →
      IsHead (Encoder.definitionName name ++ arguments ++ " =")

inductive IsLine : String → Prop
  | head : IsHead line → IsLine line
  | body : OneLine line → Indented line → IsLine line

/-- Lines with at most one blank line after each. -/
inductive Laid : String → Prop
  | last : IsLine line → Laid line
  | cons : IsLine line → Laid rest → Laid (line ++ ("\n" ++ rest))
  | blank : IsLine line → Laid rest → Laid (line ++ ("\n\n" ++ rest))

-- ---------------------------------------------------------------------------
-- Texts without line breaks
-- ---------------------------------------------------------------------------

theorem OneLine.of_alphanumeric (h : Alphanumeric text.toList) : OneLine text := by
  intro hm
  exact absurd (h '\n' hm) (by decide)

theorem OneLine.of_isTypeName (h : isTypeName name = true) : OneLine name := by
  unfold isTypeName at h
  intro hm
  split at h
  · simp_all
  · rename_i hname
    rw [hname] at hm
    simp only [Bool.and_eq_true, List.all_eq_true] at h
    rcases List.mem_cons.mp hm with rfl | hm
    · exact absurd h.1 (by decide)
    · exact absurd (h.2 '\n' hm) (by decide)

theorem oneLine_literal (text : String) : OneLine (literal text) := by
  intro hm
  exact absurd (isControl_literal text '\n' hm) (by decide)

theorem oneLine_fieldName (key : String) : OneLine (fieldName key) := by
  obtain ⟨letters, hl, he⟩ := exists_letters_fieldName key
  have hletters : OneLine (String.ofList letters) :=
    .of_alphanumeric (String.toList_ofList.symm ▸ hl.alphanumeric)
  rw [he, unreserved]
  split
  · exact oneLine_append.mpr ⟨hletters, by decide⟩
  · exact hletters

theorem oneLine_toString (n : Nat) : OneLine (toString n) := by
  intro hm
  rw [show toString n = String.ofList (Nat.toDigits 10 n) from rfl, String.toList_ofList] at hm
  exact absurd (Nat.isDigit_of_mem_toDigits (by decide) (by decide) hm) (by decide)

theorem Label.oneLine_text {label : Label} (h : ∀ type ∈ label.names, OneLine type) :
    OneLine label.text := by
  induction label with
  | named name => exact h name List.mem_cons_self
  | list item ih =>
    rw [text_list, atom]
    split <;> simp +decide only [oneLine_append, ih h, and_self]
  | _ => decide

theorem Label.oneLine_atom {label : Label} (h : ∀ type ∈ label.names, OneLine type) :
    OneLine label.atom := by
  unfold atom
  split
  · simp +decide only [oneLine_append, oneLine_text h, and_self]
  · exact oneLine_text h

theorem Decoder.oneLine_definitionName (h : isTypeName name = true) :
    OneLine (definitionName name) :=
  oneLine_append.mpr ⟨by decide, .of_isTypeName h⟩

theorem Encoder.oneLine_definitionName (h : isTypeName name = true) :
    OneLine (definitionName name) :=
  oneLine_append.mpr ⟨by decide, .of_isTypeName h⟩

theorem IsHead.oneLine (h : IsHead line) : OneLine line := by
  cases h with
  | union hn => simp +decide only [oneLine_append, OneLine.of_isTypeName hn, and_self]
  | record hn => simp +decide only [oneLine_append, OneLine.of_isTypeName hn, and_self]
  | decoderType hn hl =>
    have hlabel := Label.oneLine_atom fun type ht => .of_isTypeName (hl type ht)
    simp +decide only [oneLine_append, Decoder.oneLine_definitionName hn, hlabel, and_self]
  | decoder hn =>
    exact oneLine_append.mpr ⟨Decoder.oneLine_definitionName hn, by decide⟩
  | encoderType hn hl =>
    have hlabel := Label.oneLine_text fun type ht => .of_isTypeName (hl type ht)
    simp +decide only [oneLine_append, Encoder.oneLine_definitionName hn, hlabel, and_self]
  | encoder hn ha =>
    have harguments : ∀ arguments ∈ ["", " _", " record", " value"], OneLine arguments := by decide
    simp +decide only [oneLine_append, Encoder.oneLine_definitionName hn, harguments _ ha, and_self]

-- ---------------------------------------------------------------------------
-- What lines make
-- ---------------------------------------------------------------------------

namespace IsLine

theorem oneLine (h : IsLine line) : OneLine line := by
  cases h with
  | head h => exact h.oneLine
  | body ho _ => exact ho

theorem toList_ne_nil (h : IsLine line) : line.toList ≠ [] := by
  cases h with
  | head h => cases h <;> simp [Decoder.definitionName, Encoder.definitionName]
  | body _ hi => exact hi.ne_nil (by decide)

theorem behind (hm : OneLine mark ∧ Indented mark) (h : OneLine text) : IsLine (mark ++ text) :=
  .body (oneLine_append.mpr ⟨hm.1, h⟩) (hm.2.append text)

theorem marked (hf : OneLine first ∧ Indented first) (hl : OneLine later ∧ Indented later)
    {entries : List String} (h : ∀ entry ∈ entries, OneLine entry) :
    ∀ line ∈ Layout.marked first later entries, IsLine line := by
  cases entries with
  | nil => exact nofun
  | cons entry rest =>
    obtain ⟨hentry, hrest⟩ := List.forall_mem_cons.mp h
    refine List.forall_mem_cons.mpr ⟨behind hf hentry, fun line hline => ?_⟩
    obtain ⟨text, ht, rfl⟩ := List.mem_map.mp hline
    exact behind hl (hrest text ht)

end IsLine

namespace Laid

theorem isBlock (h : Laid text) : Text.IsBlock text.toList := by
  induction h with
  | last hl => exact .of_line hl.toList_ne_nil hl.oneLine
  | cons hl _ ih =>
    rw [String.toList_append, String.toList_append]
    exact ih.cons hl.toList_ne_nil hl.oneLine (.inl rfl)
  | blank hl _ ih =>
    rw [String.toList_append, String.toList_append]
    exact ih.cons hl.toList_ne_nil hl.oneLine (.inr rfl)

theorem parts (h : Laid text) :
    ∀ line ∈ Text.parts '\n' text, Indented line ∨ line = "" ∨ IsHead line := by
  have hline : ∀ {line}, IsLine line → Indented line ∨ line = "" ∨ IsHead line := by
    intro line h
    cases h with
    | head h => exact .inr (.inr h)
    | body _ h => exact .inl h
  induction h with
  | last hl =>
    rw [Text.parts_of_not_mem hl.oneLine]
    exact List.forall_mem_singleton.mpr (hline hl)
  | cons hl _ ih =>
    rw [show "\n" = String.singleton '\n' from rfl, Text.parts_append hl.oneLine]
    exact List.forall_mem_cons.mpr ⟨hline hl, ih⟩
  | @blank line rest hl _ ih =>
    have hbreaks : "\n\n" ++ rest = "\n" ++ ("" ++ ("\n" ++ rest)) := by
      rw [String.empty_append, ← String.append_assoc]
      rfl
    rw [hbreaks, show "\n" = String.singleton '\n' from rfl, Text.parts_append hl.oneLine,
      Text.parts_append (by decide)]
    exact List.forall_mem_cons.mpr ⟨hline hl, List.forall_mem_cons.mpr ⟨.inr (.inl rfl), ih⟩⟩

theorem lines (h : IsLine first) {rest : List String} (hr : ∀ line ∈ rest, IsLine line) :
    Laid (first ++ Layout.lines rest) := by
  induction rest generalizing first with
  | nil =>
    rw [Layout.lines_nil, String.append_empty]
    exact .last h
  | cons second rest ih =>
    obtain ⟨hs, hr⟩ := List.forall_mem_cons.mp hr
    rw [Layout.lines_cons, String.append_assoc]
    exact .cons h (ih hs hr)

theorem closed (h : IsLine first) {rest : List String} (hr : ∀ line ∈ rest, IsLine line)
    (hl : IsLine closing) : Laid (first ++ Layout.lines rest ++ ("\n" ++ closing)) := by
  have hclosing : "\n" ++ closing = Layout.lines [closing] := by
    rw [Layout.lines_cons, Layout.lines_nil, String.append_empty]
  rw [hclosing, String.append_assoc, ← Layout.lines_append]
  exact lines h (List.forall_mem_append.mpr ⟨hr, List.forall_mem_singleton.mpr hl⟩)

end Laid

/-- A text that can follow the indented start of a line. -/
def Hanging (text : String) : Prop :=
  ∀ start, OneLine start ∧ Indented start → Laid (start ++ text)

namespace Hanging

theorem oneLine (h : OneLine text) : Hanging text := fun _ hs => .last (.behind hs h)

theorem lines (hf : OneLine first) {rest : List String} (hr : ∀ line ∈ rest, IsLine line) :
    Hanging (first ++ Layout.lines rest) := by
  intro start hs
  rw [← String.append_assoc]
  exact .lines (.behind hs hf) hr

theorem closed (hf : OneLine first) {rest : List String} (hr : ∀ line ∈ rest, IsLine line) :
    Hanging (first ++ Layout.lines rest ++ "\n        ]") := by
  intro start hs
  have hclosing : IsLine "        ]" := .body (by decide) (by decide)
  rw [← String.append_assoc, ← String.append_assoc]
  exact .closed (.behind hs hf) hr hclosing

end Hanging

end ElmCodec
