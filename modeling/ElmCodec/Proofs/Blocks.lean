import ElmCodec.Text.Split
import Mathlib.Data.List.Infix

/-!
# Texts set apart by blank lines

Text can be split where three line breaks follow each other. Texts that neither
start nor end in a line break, and have no three of them in a row, are the parts
of what they make when they are joined.
-/

namespace ElmCodec.Text

/-- A line's end and two blank lines. -/
def gap : List Char := ['\n', '\n', '\n']

/-- The parts between gaps, the first gap found first. -/
def splitBlocks : List Char → List (List Char)
  | [] => [[]]
  | '\n' :: '\n' :: '\n' :: rest => [] :: splitBlocks rest
  | c :: rest =>
    match splitBlocks rest with
    | [] => [[c]]
    | block :: blocks => (c :: block) :: blocks

def blocks (text : String) : List String := (splitBlocks text.toList).map String.ofList

/-- A text that gaps can stand around. -/
structure IsBlock (text : List Char) : Prop where
  ne_nil : text ≠ []
  head : text.head? ≠ some '\n'
  last : text.getLast? ≠ some '\n'
  unbroken : ¬gap <:+: text

-- ---------------------------------------------------------------------------
-- Splitting what was joined
-- ---------------------------------------------------------------------------

theorem splitBlocks_gap (rest : List Char) : splitBlocks (gap ++ rest) = [] :: splitBlocks rest := by
  rw [gap, List.cons_append, List.cons_append, List.cons_append, List.nil_append, splitBlocks]

theorem splitBlocks_cons (hc : ¬gap <+: c :: rest) (h : splitBlocks rest = block :: later) :
    splitBlocks (c :: rest) = (c :: block) :: later := by
  rw [splitBlocks, h]
  rintro rest rfl rfl
  exact hc ⟨rest, rfl⟩

theorem splitBlocks_of_unbroken (h : ¬gap <:+: text) : splitBlocks text = [text] := by
  induction text with
  | nil => rfl
  | cons c text ih =>
    obtain ⟨hc, ht⟩ := not_or.mp fun hor => h (List.infix_cons_iff.mpr hor)
    exact splitBlocks_cons hc (ih ht)

/-- No gap starts inside a block, also where the block's end is followed by one. -/
theorem not_starts_gap (hl : (c :: text).getLast? ≠ some '\n') (hc : ¬gap <+: c :: text)
    (rest : List Char) : ¬gap <+: c :: (text ++ rest) := by
  intro h
  rcases List.prefix_or_prefix_of_prefix h (List.prefix_append (c :: text) rest) with h | h
  · exact hc h
  · have hbreak : ∀ d ∈ gap, d = '\n' := fun d hd => by simpa [gap] using hd
    obtain ⟨d, hd⟩ := Option.ne_none_iff_exists'.mp
      (List.getLast?_eq_none_iff.not.mpr (List.cons_ne_nil c text))
    have hmem := h.subset (List.mem_of_getLast? hd)
    exact hl (hbreak d hmem ▸ hd)

theorem splitBlocks_append (hl : text.getLast? ≠ some '\n') (hu : ¬gap <:+: text)
    (rest : List Char) : splitBlocks (text ++ (gap ++ rest)) = text :: splitBlocks rest := by
  induction text with
  | nil => exact splitBlocks_gap rest
  | cons c text ih =>
    obtain ⟨hc, ht⟩ := not_or.mp fun hor => hu (List.infix_cons_iff.mpr hor)
    refine splitBlocks_cons (not_starts_gap hl hc _) (ih (fun he => hl ?_) ht)
    rw [List.getLast?_cons, he]
    rfl

theorem splitBlocks_intercalate {texts : List (List Char)} (hne : texts ≠ [])
    (h : ∀ text ∈ texts, IsBlock text) : splitBlocks (gap.intercalate texts) = texts := by
  induction texts with
  | nil => exact absurd rfl hne
  | cons first rest ih =>
    have hf := h first List.mem_cons_self
    cases rest with
    | nil => exact (congrArg _ List.intercalate_singleton).trans (splitBlocks_of_unbroken hf.unbroken)
    | cons second rest =>
      rw [List.intercalate_cons_cons, List.append_assoc, splitBlocks_append hf.last hf.unbroken,
        ih (List.cons_ne_nil _ _) fun text ht => h text (List.mem_cons_of_mem _ ht)]

theorem blocks_intercalate {texts : List String} (hne : texts ≠ [])
    (h : ∀ text ∈ texts, IsBlock text.toList) : blocks ("\n\n\n".intercalate texts) = texts := by
  have hsplit : splitBlocks (gap.intercalate (texts.map String.toList)) =
      texts.map String.toList := by
    refine splitBlocks_intercalate (mt List.map_eq_nil_iff.mp hne) fun text ht => ?_
    obtain ⟨piece, hp, rfl⟩ := List.mem_map.mp ht
    exact h piece hp
  have hgap : "\n\n\n".toList = gap := rfl
  rw [blocks, String.toList_intercalate, hgap, hsplit, List.map_map]
  exact (List.map_congr_left fun text _ => String.ofList_toList).trans texts.map_id

-- ---------------------------------------------------------------------------
-- Blocks made of lines
-- ---------------------------------------------------------------------------

theorem unbroken_append (hl : '\n' ∉ line) (h : ¬gap <:+: rest) : ¬gap <:+: line ++ rest := by
  induction line with
  | nil => exact h
  | cons c line ih =>
    obtain ⟨hc, hl⟩ := List.ne_and_not_mem_of_not_mem_cons hl
    rw [List.cons_append, List.infix_cons_iff, not_or]
    refine ⟨fun hp => hc ?_, ih hl⟩
    exact (List.cons_prefix_cons.mp hp).1

namespace IsBlock

theorem of_line (hne : line ≠ []) (hl : '\n' ∉ line) : IsBlock line where
  ne_nil := hne
  head h := hl (List.mem_of_head? h)
  last h := hl (List.mem_of_getLast? h)
  unbroken h := hl (h.subset List.mem_cons_self)

theorem cons (hne : line ≠ []) (hl : '\n' ∉ line) (hb : breaks = ['\n'] ∨ breaks = ['\n', '\n'])
    (h : IsBlock rest) : IsBlock (line ++ (breaks ++ rest)) where
  ne_nil := List.append_ne_nil_of_left_ne_nil hne _
  head := by
    rw [List.head?_append_of_ne_nil line hne]
    exact (of_line hne hl).head
  last := by
    rw [List.getLast?_append_of_ne_nil _ (List.append_ne_nil_of_right_ne_nil _ h.ne_nil),
      List.getLast?_append_of_ne_nil _ h.ne_nil]
    exact h.last
  unbroken := by
    refine unbroken_append hl ?_
    obtain ⟨c, rest, rfl⟩ := List.exists_cons_of_ne_nil h.ne_nil
    have hc : c ≠ '\n' := fun hc => h.head (hc ▸ rfl)
    have hu := h.unbroken
    rcases hb with rfl | rfl
    · simpa [gap, List.infix_cons_iff, List.cons_prefix_cons, Ne.symm hc] using hu
    · simpa [gap, List.infix_cons_iff, List.cons_prefix_cons, Ne.symm hc] using hu

end IsBlock

end ElmCodec.Text
