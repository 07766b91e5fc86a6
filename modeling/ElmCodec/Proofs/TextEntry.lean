import ElmCodec.Proofs.TextReading

/-!
# Texts are converted as the values they denote

Converting a text gives what converting the value gives that it denotes, faults
included. What follows a value that is no number decides nothing about it, so
more than blanks there is a fault of the document. The one thing that can stand
in the way is a number past the reader's own arithmetic, which ends a little
before the doubles do.
-/

namespace ElmCodec

namespace Json

variable {text : String} {value : Json} {numbers : Numeral → Number → Prop}

theorem Ends.nil : Ends [] := by
  intro c hc
  cases hc

theorem readValue_document
    (hn : ∀ numeral value, numbers numeral value → numeral.double?.isSome = true)
    (h : DocumentText numbers text value) (rest : List Char)
    (hr : ∀ number, value = .number number → Ends rest) :
    ∃ found, found.Alike value ∧ ∃ after, Blanks after ∧
      readValue maxDepth (text.toList ++ rest) = .ok (found, after ++ rest) := by
  have hreads : Padded (ReadsAs 127) text.toList value := h.imp fun _ _ => readsAs_of_denotes hn
  obtain ⟨found, after, hread, ha, halike⟩ := readValue_padded hreads hr
  exact ⟨found, halike, after, ha, hread⟩

theorem read_document
    (hn : ∀ numeral value, numbers numeral value → numeral.double?.isSome = true)
    (h : DocumentText numbers text value) : ∃ found, read text = .ok found ∧ found.Alike value := by
  obtain ⟨found, halike, after, ha, hread⟩ := readValue_document hn h [] fun _ _ => .nil
  have hend : skipBlanks after = [] := by
    rw [← List.append_nil after, skipBlanks_append ha]
    rfl
  rw [List.append_nil, List.append_nil] at hread
  refine ⟨found, ?_, halike⟩
  simp [read, readDocument, hread, hend, bind, Except.bind, Except.mapError]

/-- The spellings that are read are those with a computed double. -/
theorem read_numeral_iff {numeral : Numeral} (hl : numeral.Legal) :
    (∃ found, read (String.ofList numeral.text) = .ok found) ↔ numeral.double?.isSome = true := by
  constructor
  · rintro ⟨found, h⟩
    have hread := Numeral.readNumber_magnitudeText hl .nil numeral.negative
    have hvalue := readValue_numeral hl maxDepth []
    simp only [List.append_nil] at hread hvalue
    generalize readNumber numeral.negative numeral.magnitudeText = result at hread hvalue
    rw [Numeral.isSome_double?]
    generalize numeral.magnitude? = computed at hread ⊢
    cases hread with
    | number => rfl
    | outOfRange =>
      rw [read, readDocument, String.toList_ofList, hvalue] at h
      cases h
  · intro hf
    have hdocument : DocumentText (fun n _ => n.double?.isSome = true)
        (String.ofList numeral.text) (.number (.integer 0)) := by
      rw [DocumentText, String.toList_ofList]
      exact .bare (.scalar (.number hl hf) 127)
    obtain ⟨found, hread, -⟩ := read_document (fun _ _ h => h) hdocument
    exact ⟨found, hread⟩

theorem skipBlanks_ne_nil (h : ¬ Blanks extra) : skipBlanks extra ≠ [] := by
  intro he
  exact h fun c hc => isBlank_iff.mp (List.dropWhile_eq_nil_iff.mp he c hc)

theorem read_document_append
    (hn : ∀ numeral value, numbers numeral value → numeral.double?.isSome = true)
    (h : DocumentText numbers text value) (hv : ∀ number, value ≠ .number number)
    {extra : String} (he : ¬ Blanks extra.toList) :
    ∃ fault, read (text ++ extra) = .error fault ∧ fault.place = "." := by
  obtain ⟨found, -, after, ha, hread⟩ :=
    readValue_document hn h extra.toList fun number hnumber => absurd hnumber (hv number)
  have hrest : skipBlanks (after ++ extra.toList) ≠ [] := by
    rw [skipBlanks_append ha]
    exact skipBlanks_ne_nil he
  have hdocument : readDocument (text ++ extra).toList =
      .error (.on .trailingCharacters (skipBlanks (after ++ extra.toList))) := by
    rw [String.toList_append, readDocument, hread]
    cases hs : skipBlanks (after ++ extra.toList) with
    | nil => exact absurd hs hrest
    | cons c others => simp [bind, Except.bind, hs]
  refine ⟨_, by rw [read, hdocument, Except.mapError], rfl⟩

end Json

-- ---------------------------------------------------------------------------
-- Two documents
-- ---------------------------------------------------------------------------

namespace Json

/-- The second key is the first one again, with its letter escaped. -/
def repeatedText : String := "\x7b\"k\":1,\"\\u006B\" :[\"\\ud83d\\uDE00\"]\x7d\n"

def repeated : Json := .object [("k", .list [.string "😀"])]

theorem StringText.intro (h : List.Forall₂ CharText parts chars) :
    StringText ('"' :: (parts.flatten ++ ['"'])) (String.ofList chars) :=
  ⟨parts, (String.toList_ofList (l := chars)).symm ▸ h, rfl⟩

theorem documentText_repeated : DocumentText Numeral.IsComputed repeatedText repeated := by
  have hone : Numeral.IsComputed ⟨false, ['1'], none, none⟩ (.integer 1) :=
    ⟨by decide +kernel, .inl (by decide +kernel)⟩
  have hlegal : Numeral.Legal ⟨false, ['1'], none, none⟩ := ⟨by decide, nofun, nofun, nofun⟩
  have hplain : CharText ['k'] 'k' := .plain (by decide) (by decide) (by decide)
  have hunit : UnitText ['\\', 'u', '0', '0', '6', 'B'] 0x6B :=
    @UnitText.intro '0' 0 '0' 0 '6' 6 'B' 11 (by decide) (by decide) (by decide) (by decide)
  have hhigh : UnitText ['\\', 'u', 'd', '8', '3', 'd'] 0xD83D :=
    @UnitText.intro 'd' 13 '8' 8 '3' 3 'd' 13 (by decide) (by decide) (by decide) (by decide)
  have hlow : UnitText ['\\', 'u', 'D', 'E', '0', '0'] 0xDE00 :=
    @UnitText.intro 'D' 13 'E' 14 '0' 0 '0' 0 (by decide) (by decide) (by decide) (by decide)
  have hescaped : CharText [_, _, _, _, _, _] 'k' := @CharText.escaped [_] 'k' (.cons hunit .nil)
  have hpair : CharText [_, _, _, _, _, _, _, _, _, _, _, _] '😀' :=
    @CharText.escaped [_, _] '😀' (.cons hhigh (.cons hlow .nil))
  have hk : StringText ['"', 'k', '"'] "k" := .intro (.cons hplain .nil)
  have hkey : StringText ['"', '\\', 'u', '0', '0', '6', 'B', '"'] "k" :=
    .intro (.cons hescaped .nil)
  have hstring : StringText "\"\\ud83d\\uDE00\"".toList "😀" := .intro (.cons hpair .nil)
  have hfirst : MemberText (Denotes Numeral.IsComputed 126) _ ("k", .number (.integer 1)) :=
    .intro (.bare hk) (.bare (.scalar (.number hlegal hone) 126))
  have hlist : Denotes Numeral.IsComputed 126 _ (.list [.string "😀"]) :=
    .inr (.list (.parts (.last (.bare (.scalar (.string hstring) 125)))))
  have hsecond : MemberText (Denotes Numeral.IsComputed 126) _ ("k", .list [.string "😀"]) :=
    .intro (.intro (by decide : Blanks []) hkey (by decide : Blanks [' '])) (.bare hlist)
  have hlast : ∀ key, [("k", Json.list [.string "😀"])].lookup key =
      [("k", .number (.integer 1)), ("k", Json.list [.string "😀"])].reverse.lookup key := by
    intro key
    by_cases h : key = "k" <;> simp [Members.lookup_cons_eq_ite, h]
  have hobject : Denotes Numeral.IsComputed 127 _ repeated :=
    .inr (.object (.parts (.more hfirst (.last hsecond))) (by decide) hlast)
  exact .intro (by decide : Blanks []) hobject (by decide : Blanks ['\n'])

/-- A decimal whose nearest double is the largest one. -/
def largestText : String := "1.7976931348623158e308"

def largest : Json := .number (.double ⟨0x7FEFFFFFFFFFFFFF⟩)

theorem documentText_largest : DocumentText Numeral.IsNearest largestText largest := by
  have hexponent : Exponent.Legal ⟨'e', none, "308".toList⟩ := ⟨by decide, by decide, by decide⟩
  have hlegal : Numeral.Legal
      ⟨false, ['1'], some "7976931348623158".toList, some ⟨'e', none, "308".toList⟩⟩ :=
    ⟨by decide, by decide, fun _ h => Option.some.inj h ▸ by decide,
      fun _ h => Option.some.inj h ▸ hexponent⟩
  exact .bare (.scalar (.number hlegal ⟨by decide +kernel, by decide +kernel⟩) 127)

end Json

namespace Artifacts

/-- A text whose numbers can be computed is converted as the value that it denotes, and
fails as a document if it is no number and more than blanks are put behind it. -/
theorem ofText_denotes {text : String} {value : Json}
    (h : Json.DocumentText Json.Numeral.IsComputed text value) (options : Options) :
    ofText options text = (ofJson options value).mapError .names ∧
      ((∀ number, value ≠ .number number) → ∀ extra : String, ¬ Json.Blanks extra.toList →
        ∃ fault, ofText options (text ++ extra) = .error (.text fault) ∧ fault.place = ".") := by
  have hn : ∀ (numeral : Json.Numeral) value, numeral.IsComputed value →
      numeral.double?.isSome = true := fun _ _ h => h.finite
  constructor
  · obtain ⟨found, hread, halike⟩ := Json.read_document hn h
    rw [ofText, hread, ← halike.ofJson options]
    rfl
  · intro hv extra he
    obtain ⟨fault, hread, hplace⟩ := Json.read_document_append hn h hv he
    exact ⟨fault, by rw [ofText, hread]; rfl, hplace⟩

/-- The second `k` counts, and a word after the document does not. -/
theorem ofText_denotes_repeated :
    Json.DocumentText Json.Numeral.IsComputed Json.repeatedText Json.repeated ∧
      ofText {} Json.repeatedText = (ofJson {} Json.repeated).mapError .names ∧
      ∃ fault, ofText {} (Json.repeatedText ++ "x") = .error (.text fault) ∧ fault.place = "." := by
  have h := ofText_denotes Json.documentText_repeated {}
  exact ⟨Json.documentText_repeated, h.1, h.2 nofun "x" (by decide)⟩

/-- The largest double is finite, but multiplying out its decimal is not. -/
theorem ofText_largest :
    Json.DocumentText Json.Numeral.IsNearest Json.largestText Json.largest ∧
      ofText {} Json.largestText = .error (.text ⟨.numberOutOfRange, [], ⟨1, 22⟩⟩) ∧
      ofJson {} Json.largest = .ok (Program.ofJson {} Json.largest).artifacts ∧
      ¬ ∀ (text : String) (value : Json), Json.DocumentText Json.Numeral.IsNearest text value →
        ∀ options, ofText options text = (ofJson options value).mapError .names := by
  have htext : ofText {} Json.largestText = .error (.text ⟨.numberOutOfRange, [], ⟨1, 22⟩⟩) := by
    decide +kernel
  have hjson : ofJson {} Json.largest = .ok (Program.ofJson {} Json.largest).artifacts := by
    decide +kernel
  refine ⟨Json.documentText_largest, htext, hjson, fun h => ?_⟩
  have hsame := h Json.largestText Json.largest Json.documentText_largest {}
  rw [htext, hjson] at hsame
  cases hsame

end Artifacts

end ElmCodec
