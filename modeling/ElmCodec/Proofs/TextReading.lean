import ElmCodec.Proofs.Grammar
import ElmCodec.Proofs.Written
import Mathlib.Data.List.DropRight

/-!
# Texts are read as what they denote

Every text that denotes a value, with numbers that are finite as computed, is
read as a value alike: only numbers can come out different. The proof follows
the reader: scalars first, then what stands between brackets, given a reader for
the parts, then one depth after the other. A number must not go on in what
follows it; nothing else looks ahead.
-/

namespace ElmCodec.Json

open List (Forall₂)

-- ---------------------------------------------------------------------------
-- Blanks
-- ---------------------------------------------------------------------------

theorem isBlank_iff {c : Char} : isBlank c = true ↔ c ∈ [' ', '\t', '\n', '\r'] := by
  simp [isBlank, or_assoc]

theorem skipBlanks_append (h : Blanks before) (rest : List Char) :
    skipBlanks (before ++ rest) = skipBlanks rest :=
  List.dropWhile_append_of_pos fun c hc => isBlank_iff.mpr (h c hc)

theorem skipBlanks_cons (hc : isBlank c = false) (rest : List Char) :
    skipBlanks (c :: rest) = c :: rest := by
  simp [skipBlanks, hc]

theorem skipBlanks_before (h : Blanks before) (hc : isBlank c = false) (rest : List Char) :
    skipBlanks (before ++ c :: rest) = c :: rest := by
  rw [skipBlanks_append h, skipBlanks_cons hc]

theorem readValue_skipBlanks (depth : Nat) (text : List Char) :
    readValue depth (skipBlanks text) = readValue depth text := by
  have h : skipBlanks (skipBlanks text) = skipBlanks text := List.dropWhile_idempotent ..
  rw [readValue, readValue, h]

theorem length_skipBlanks_le (text : List Char) : (skipBlanks text).length ≤ text.length :=
  (List.dropWhile_suffix isBlank).length_le

theorem lt_length_skipBlanks (hc : isBlank c = false) (text rest : List Char) :
    rest.length < (skipBlanks (text ++ c :: rest)).length := by
  induction text with
  | nil => simp [skipBlanks_cons hc]
  | cons d text ih =>
    rw [List.cons_append, skipBlanks, List.dropWhile_cons]
    split
    · exact ih
    · simp
      omega

theorem Ends.cons (h : c.isDigit = false ∧ c ≠ '.' ∧ c ≠ 'e' ∧ c ≠ 'E') (rest : List Char) :
    Ends (c :: rest) :=
  fun _ hc => Option.some.inj hc ▸ h

theorem Ends.blanks (h : Ends rest) (ha : Blanks after) : Ends (after ++ rest) := by
  cases after with
  | nil => exact h
  | cons c after =>
    refine .cons ?_ _
    have hc := ha c List.mem_cons_self
    simp only [List.mem_cons, List.not_mem_nil, or_false] at hc
    rcases hc with rfl | rfl | rfl | rfl <;> decide

-- ---------------------------------------------------------------------------
-- Scalars
-- ---------------------------------------------------------------------------

/-- The text is read as a value alike, whatever follows. -/
def ReadsAs (depth : Nat) (text : List Char) (value : Json) : Prop :=
  ∀ rest, (∀ number, value = .number number → Ends rest) →
    ∃ found, readValue depth (text ++ rest) = .ok (found, rest) ∧ found.Alike value

theorem readValue_digit (hd : d.isDigit = true) (depth : Nat) (rest : List Char) :
    readValue depth (d :: rest) =
      (readNumber false (d :: rest)).map fun (value, rest) => (.number value, rest) := by
  have other : ∀ {c : Char}, c.isDigit = false → d ≠ c := ne_of_isDigit hd
  have hb : isBlank d = false := by
    simp only [isBlank, Bool.or_eq_false_iff, decide_eq_false_iff_not]
    exact ⟨⟨⟨other rfl, other rfl⟩, other rfl⟩, other rfl⟩
  rw [readValue, skipBlanks_cons hb]
  simp [hd, other (c := 'n') rfl, other (c := 't') rfl, other (c := 'f') rfl,
    other (c := '"') rfl, other (c := '-') rfl, other (c := '[') rfl, other (c := '{') rfl]

theorem readValue_numeral {numeral : Numeral} (hl : numeral.Legal) (depth : Nat)
    (rest : List Char) : readValue depth (numeral.text ++ rest) =
      (readNumber numeral.negative (numeral.magnitudeText ++ rest)).map
        fun (value, rest) => (.number value, rest) := by
  cases hn : numeral.negative with
  | true => simp [Numeral.text, hn, readValue, skipBlanks, isBlank]
  | false =>
    obtain ⟨d, ds, hw, hd⟩ := hl.whole.exists_cons
    simp only [Numeral.text, hn, Bool.false_eq_true, if_false, List.nil_append]
    simp only [Numeral.magnitudeText, hw, List.cons_append]
    exact readValue_digit hd depth _

theorem readsAs_numeral {numeral : Numeral} (hl : numeral.Legal)
    (hf : numeral.double?.isSome = true) (depth : Nat) (value : Number) :
    ReadsAs depth numeral.text (.number value) := by
  intro rest hr
  have hread := Numeral.readNumber_magnitudeText hl (hr value rfl) numeral.negative
  rw [Numeral.isSome_double?] at hf
  obtain ⟨x, hx⟩ := Option.isSome_iff_exists.mp hf
  rw [hx] at hread
  rw [readValue_numeral hl]
  generalize readNumber numeral.negative (numeral.magnitudeText ++ rest) = result at hread ⊢
  cases hread with
  | number => exact ⟨.number _, rfl, .number _ value⟩

theorem readsAs_scalar {numbers : Numeral → Number → Prop}
    (hn : ∀ numeral value, numbers numeral value → numeral.double?.isSome = true)
    (h : ScalarText numbers text value) (depth : Nat) : ReadsAs depth text value := by
  intro rest hr
  cases h with
  | null => exact ⟨.null, by simp [readValue, skipBlanks, isBlank, readWord], .refl _⟩
  | true => exact ⟨.boolean true, by simp [readValue, skipBlanks, isBlank, readWord], .refl _⟩
  | false => exact ⟨.boolean false, by simp [readValue, skipBlanks, isBlank, readWord], .refl _⟩
  | number hl hv => exact readsAs_numeral hl (hn _ _ hv) depth _ rest hr
  | string hs =>
    obtain ⟨after, rfl, hread⟩ := readString_text hs rest
    refine ⟨_, ?_, .refl _⟩
    simp [readValue, skipBlanks, isBlank, hread, Except.map]

-- ---------------------------------------------------------------------------
-- Lists
-- ---------------------------------------------------------------------------

section
variable {depth : Nat} {text rest : List Char}

theorem readValue_padded (h : Padded (ReadsAs depth) text value)
    (hr : ∀ number, value = .number number → Ends rest) : ∃ found after,
      readValue depth (text ++ rest) = .ok (found, after ++ rest) ∧ Blanks after ∧
      found.Alike value := by
  cases h with
  | @intro before text value after hb hread ha =>
    obtain ⟨found, hf, halike⟩ := hread (after ++ rest) fun number hn => (hr number hn).blanks ha
    refine ⟨found, after, ?_, ha, halike⟩
    rw [← readValue_skipBlanks, List.append_assoc, skipBlanks_append hb, readValue_skipBlanks,
      List.append_assoc]
    exact hf

theorem start_of_readValue (h : readValue depth text = .ok result) :
    ∃ c others, skipBlanks text = c :: others ∧ c ≠ ']' := by
  cases hs : skipBlanks text with
  | nil =>
    rw [readValue, hs] at h
    cases h
  | cons c others =>
    refine ⟨c, others, rfl, ?_⟩
    rintro rfl
    rw [readValue, hs] at h
    simp at h

variable {items : List Json}

theorem start_of_separated (h : Separated (Padded (ReadsAs depth)) text items)
    (rest : List Char) : ∃ c others, skipBlanks (text ++ ']' :: rest) = c :: others ∧ c ≠ ']' := by
  cases h with
  | last h =>
    obtain ⟨_, _, hread, -, -⟩ := readValue_padded h (fun _ _ => .cons (c := ']') (by decide) rest)
    exact start_of_readValue hread
  | @more text value next values h _ =>
    obtain ⟨_, _, hread, -, -⟩ :=
      readValue_padded h (fun _ _ => .cons (c := ',') (by decide) (next ++ ']' :: rest))
    rw [List.append_assoc]
    exact start_of_readValue hread

theorem readItems_text (h : Separated (Padded (ReadsAs depth)) text items) (rest : List Char)
    (hf : (skipBlanks (text ++ ']' :: rest)).length ≤ fuel) (index : Nat) :
    ∃ found, readItems (readValue depth) fuel index (skipBlanks (text ++ ']' :: rest)) =
      .ok (found, rest) ∧ Forall₂ Json.Alike found items := by
  induction h generalizing fuel index with
  | @last text value h =>
    obtain ⟨found, after, hread, ha, halike⟩ :=
      readValue_padded h (fun _ _ => .cons (c := ']') (by decide) rest)
    have hlt := lt_length_skipBlanks (c := ']') rfl text rest
    cases fuel with
    | zero => omega
    | succ fuel =>
      refine ⟨[found], ?_, .cons halike .nil⟩
      simp [readItems, readValue_skipBlanks, hread, Except.mapError, bind, Except.bind,
        skipBlanks_before ha (c := ']') rfl]
  | @more text value next values h hnext ih =>
    obtain ⟨found, after, hread, ha, halike⟩ :=
      readValue_padded h (fun _ _ => .cons (c := ',') (by decide) (next ++ ']' :: rest))
    have hlt := lt_length_skipBlanks (c := ',') rfl text (next ++ ']' :: rest)
    obtain ⟨c, others, hs, hc⟩ := start_of_separated hnext rest
    rw [List.append_assoc, List.cons_append] at hf ⊢
    cases fuel with
    | zero => omega
    | succ fuel =>
      have hle : (skipBlanks (next ++ ']' :: rest)).length ≤ fuel := by
        have := length_skipBlanks_le (next ++ ']' :: rest)
        omega
      obtain ⟨later, hrest, hall⟩ := ih hle (index + 1)
      refine ⟨found :: later, ?_, .cons halike hall⟩
      rw [hs] at hrest
      simp [readItems, readValue_skipBlanks, hread, Except.mapError, bind, Except.bind,
        skipBlanks_before ha (c := ',') rfl, hs, hc, hrest]

theorem readList_text (h : Body (Padded (ReadsAs depth)) text items) (rest : List Char) :
    ∃ found, readList (readValue depth) (text ++ ']' :: rest) = .ok (found, rest) ∧
      Forall₂ Json.Alike found items := by
  cases h with
  | blank hb => exact ⟨[], by simp [readList, skipBlanks_before hb (c := ']') rfl], .nil⟩
  | parts h =>
    obtain ⟨found, hread, halike⟩ := readItems_text h rest (Nat.le_refl _) 0
    obtain ⟨c, others, hs, hc⟩ := start_of_separated h rest
    rw [hs, List.length_cons] at hread
    refine ⟨found, ?_, halike⟩
    simp [readList, hs, hc, hread]

-- ---------------------------------------------------------------------------
-- Objects
-- ---------------------------------------------------------------------------

theorem readKey_text (h : Padded StringText name key) (rest : List Char) :
    ∃ others after, skipBlanks (name ++ rest) = '"' :: others ∧
      readKey ('"' :: others) = .ok (key, after ++ rest) ∧ Blanks after := by
  cases h with
  | @intro before name key after hb hn ha =>
    obtain ⟨others, rfl, hread⟩ := readString_text hn (after ++ rest)
    refine ⟨others ++ (after ++ rest), after, ?_, ?_, ha⟩
    · rw [List.append_assoc, List.cons_append, List.cons_append, List.append_assoc]
      exact skipBlanks_before hb rfl _
    · simp [readKey, hread, Except.mapError]

theorem readMember_text {m : String × Json} (h : MemberText (ReadsAs depth) text m)
    (hr : Ends rest) : ∃ others afterKey next found after,
      skipBlanks (text ++ rest) = '"' :: others ∧ readKey ('"' :: others) = .ok (m.1, afterKey) ∧
      readColon afterKey = .ok next ∧ readValue depth next = .ok (found, after ++ rest) ∧
      Blanks after ∧ found.Alike m.2 := by
  cases h with
  | @intro name key text value hn hv =>
    obtain ⟨others, after, hs, hkey, ha⟩ := readKey_text hn (':' :: (text ++ rest))
    obtain ⟨found, later, hread, hl, halike⟩ := readValue_padded hv fun _ _ => hr
    refine ⟨others, _, _, found, later, ?_, hkey, ?_, hread, hl, halike⟩
    · rw [List.append_assoc]
      exact hs
    · simp [readColon, skipBlanks_before ha (c := ':') rfl]

variable {members written : List (String × Json)}

theorem start_of_members (h : Separated (MemberText (ReadsAs depth)) text written)
    (rest : List Char) : ∃ others, skipBlanks (text ++ '}' :: rest) = '"' :: others := by
  cases h with
  | last h =>
    obtain ⟨others, _, _, _, _, hs, -⟩ :=
      readMember_text h (.cons (c := '}') (by decide) rest)
    exact ⟨others, hs⟩
  | @more text m next written h _ =>
    obtain ⟨others, _, _, _, _, hs, -⟩ :=
      readMember_text h (.cons (c := ',') (by decide) (next ++ '}' :: rest))
    rw [List.append_assoc]
    exact ⟨others, hs⟩

theorem readMembers_text (h : Separated (MemberText (ReadsAs depth)) text written)
    (rest : List Char) (hf : (skipBlanks (text ++ '}' :: rest)).length ≤ fuel) :
    ∃ found, readMembers (readValue depth) fuel (skipBlanks (text ++ '}' :: rest)) =
      .ok (found, rest) ∧ Forall₂ (fun m n => m.1 = n.1 ∧ m.2.Alike n.2) found written := by
  induction h generalizing fuel with
  | @last text m h =>
    obtain ⟨others, afterKey, next, found, after, hs, hkey, hcolon, hread, ha, halike⟩ :=
      readMember_text h (.cons (c := '}') (by decide) rest)
    rw [hs] at hf ⊢
    cases fuel with
    | zero => simp at hf
    | succ fuel =>
      refine ⟨[(m.1, found)], ?_, .cons ⟨rfl, halike⟩ .nil⟩
      simp [readMembers, hkey, hcolon, hread, Except.mapError, bind, Except.bind,
        skipBlanks_before ha (c := '}') rfl]
  | @more text m next written h _ ih =>
    obtain ⟨others, afterKey, afterColon, found, after, hs, hkey, hcolon, hread, ha, halike⟩ :=
      readMember_text h (.cons (c := ',') (by decide) (next ++ '}' :: rest))
    have hlt := lt_length_skipBlanks (c := ',') rfl text (next ++ '}' :: rest)
    rw [List.append_assoc, List.cons_append] at hf ⊢
    cases fuel with
    | zero => omega
    | succ fuel =>
      have hle : (skipBlanks (next ++ '}' :: rest)).length ≤ fuel := by
        have := length_skipBlanks_le (next ++ '}' :: rest)
        omega
      obtain ⟨later, hrest, hall⟩ := ih hle
      refine ⟨(m.1, found) :: later, ?_, .cons ⟨rfl, halike⟩ hall⟩
      rw [hs]
      simp [readMembers, hkey, hcolon, hread, Except.mapError, bind, Except.bind,
        skipBlanks_before ha (c := ',') rfl, hrest]

theorem readObject_text (h : Body (MemberText (ReadsAs depth)) text written)
    (hd : (members.map (·.1)).Nodup)
    (hl : ∀ key, members.lookup key = written.reverse.lookup key) (rest : List Char) :
    ∃ found, readObject (readValue depth) (text ++ '}' :: rest) = .ok (found, rest) ∧
      (object found).Alike (.object members) := by
  cases h with
  | blank hb =>
    refine ⟨Members.ofWritten [], ?_, .written .nil hd hl⟩
    simp [readObject, skipBlanks_before hb (c := '}') rfl, Members.ofWritten]
  | parts h =>
    obtain ⟨found, hread, halike⟩ := readMembers_text h rest (Nat.le_refl _)
    obtain ⟨others, hs⟩ := start_of_members h rest
    rw [hs, List.length_cons] at hread
    refine ⟨Members.ofWritten found, ?_, .written halike hd hl⟩
    simp [readObject, hs, hread, bind, Except.bind]

end

-- ---------------------------------------------------------------------------
-- Values
-- ---------------------------------------------------------------------------

theorem readsAs_composite (h : CompositeText (ReadsAs depth) text value) :
    ReadsAs (depth + 1) text value := by
  intro rest _
  cases h with
  | @list text items h =>
    obtain ⟨found, hread, halike⟩ := readList_text h rest
    refine ⟨.list found, ?_, .list halike⟩
    simp [readValue, skipBlanks, isBlank, hread, Except.map]
  | @object text written members h hd hl =>
    obtain ⟨found, hread, halike⟩ := readObject_text h hd hl rest
    refine ⟨.object found, ?_, halike⟩
    simp [readValue, skipBlanks, isBlank, hread, Except.map]

/-- A text within the depth is read as a value alike. -/
theorem readsAs_of_denotes {numbers : Numeral → Number → Prop}
    (hn : ∀ numeral value, numbers numeral value → numeral.double?.isSome = true)
    (h : Denotes numbers depth text value) : ReadsAs depth text value := by
  induction depth generalizing text value with
  | zero => exact readsAs_scalar hn h 0
  | succ depth ih =>
    rcases h with h | h
    · exact readsAs_scalar hn h _
    · exact readsAs_composite (h.imp fun _ _ => ih)

end ElmCodec.Json
