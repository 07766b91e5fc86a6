import ElmCodec.Proofs.Preservation

/-!
# Labels and codecs

The codec of a node follows from its label and one more bit: whether the first
items lead down to a list without items. The label of such a list is that of a
list of nulls, its codec is not, and so `[]` and `[null]` in one list have one
label and two codecs. Nothing else comes between them: items with one label
have one codec exactly if all or none of them lead to an empty list.
-/

namespace ElmCodec

/-- The first items, from one list to the next, end at a list without items. -/
def Node.leadsToEmpty : Node → Bool
  | list _ [] => true
  | list _ (first :: rest) => !isMixed (first :: rest) && first.leadsToEmpty
  | _ => false

def Label.nested : Nat → Label
  | 0 => unit
  | depth + 1 => list (nested depth)

namespace Decoder

/-- The decoder for a label, of nodes that lead to an empty list or of all others. -/
def ofLabel : Label → Bool → Decoder
  | .bool, _ => bool
  | .float, _ => float
  | .string, _ => string
  | .unit, empty => if empty then anything else null
  | .named name, _ => named name
  | .list item, empty => list (ofLabel item empty)

end Decoder

namespace Encoder

def ofLabel : Label → Bool → Encoder
  | .bool, _ => bool
  | .float, _ => float
  | .string, _ => string
  | .unit, _ => null
  | .named name, _ => named name
  | .list .unit, true => emptyList
  | .list item, empty => list (ofLabel item empty)

end Encoder

namespace Node

theorem leadsToEmpty_mixed (path : Path) (h : isMixed (first :: rest) = true) :
    (list path (first :: rest)).leadsToEmpty = false := by
  simp [leadsToEmpty, h]

theorem leadsToEmpty_uniform (path : Path) (h : isMixed (first :: rest) = false) :
    (list path (first :: rest)).leadsToEmpty = first.leadsToEmpty := by
  simp [leadsToEmpty, h]

theorem label_of_leadsToEmpty (node : Node) (h : node.leadsToEmpty = true) :
    ∃ depth, node.label = .nested (depth + 1) := by
  induction node using inductFirst with
  | scalar path value => simp [leadsToEmpty] at h
  | object path members => simp [leadsToEmpty] at h
  | empty path => exact ⟨0, rfl⟩
  | mixed path first rest hm => simp [leadsToEmpty_mixed path hm] at h
  | uniform path first rest hm ih =>
    rw [leadsToEmpty_uniform path hm] at h
    obtain ⟨depth, hd⟩ := ih h
    exact ⟨depth + 1, by rw [label_list_uniform path hm, hd]; rfl⟩

end Node

-- ---------------------------------------------------------------------------
-- The codec of a label
-- ---------------------------------------------------------------------------

theorem Decoder.ofNode_eq_ofLabel (node : Node) :
    ofNode node = ofLabel node.label node.leadsToEmpty := by
  induction node using Node.inductFirst with
  | scalar path value => cases value <;> rfl
  | object path members => rfl
  | empty path => rfl
  | mixed path first rest hm =>
    rw [ofNode_mixed path hm, Node.label_list_mixed path hm]
    rfl
  | uniform path first rest hm ih =>
    rw [ofNode_uniform path hm, Node.label_list_uniform path hm,
      Node.leadsToEmpty_uniform path hm, ih]
    rfl

theorem Decoder.text_list_injective {a b : Decoder} (h : (list a).text = (list b).text) :
    a.text = b.text := by
  have hs : "(Json.Decode.list " ++ a.text ++ ")" = "(Json.Decode.list " ++ b.text ++ ")" := h
  simpa using hs

theorem Decoder.text_nested_ne (depth : Nat) :
    (ofLabel (.nested depth) true).text ≠ (ofLabel (.nested depth) false).text := by
  induction depth with
  | zero =>
    have hne : "(Json.Decode.succeed ())" ≠ "(Json.Decode.null ())" := by simp
    exact hne
  | succ depth ih => exact mt text_list_injective ih

theorem Encoder.ofNode_eq_ofLabel (node : Node) :
    ofNode node = ofLabel node.label node.leadsToEmpty := by
  induction node using Node.inductFirst with
  | scalar path value => cases value <;> rfl
  | object path members => rfl
  | empty path => rfl
  | mixed path first rest hm =>
    rw [ofNode_mixed path hm, Node.label_list_mixed path hm]
    rfl
  | uniform path first rest hm ih =>
    rw [ofNode_uniform path hm, Node.label_list_uniform path hm,
      Node.leadsToEmpty_uniform path hm, ih, ofLabel]
    -- No node has the unit for label and leads to an empty list.
    intro he hu
    obtain ⟨depth, hd⟩ := first.label_of_leadsToEmpty he
    cases hu.symm.trans hd

theorem Encoder.text_list_injective {a b : Encoder} (h : (list a).text = (list b).text) :
    a.text = b.text := by
  have hs : "(Json.Encode.list " ++ a.text ++ ")" = "(Json.Encode.list " ++ b.text ++ ")" := h
  simpa using hs

theorem Encoder.text_nested_ne (depth : Nat) :
    (ofLabel (.nested (depth + 1)) true).text ≠ (ofLabel (.nested (depth + 1)) false).text := by
  induction depth with
  | zero =>
    have hne : "(\\_ -> Json.Encode.list identity [])" ≠
        "(Json.Encode.list " ++ "(\\_ -> Json.Encode.null)" ++ ")" := by simp
    exact hne
  | succ depth ih => exact mt text_list_injective ih

/-- What is made of a label and this bit tells nodes of one label apart by the bit. -/
theorem Node.ofLabel_eq_iff {f : Label → Bool → α} {a b : Node} (hl : a.label = b.label)
    (hf : ∀ depth, f (.nested (depth + 1)) true ≠ f (.nested (depth + 1)) false) :
    f a.label a.leadsToEmpty = f b.label b.leadsToEmpty ↔ a.leadsToEmpty = b.leadsToEmpty := by
  cases ha : a.leadsToEmpty <;> cases hb : b.leadsToEmpty
  · simp [hl]
  · obtain ⟨depth, hd⟩ := b.label_of_leadsToEmpty hb
    simpa [hl, hd] using (hf depth).symm
  · obtain ⟨depth, hd⟩ := a.label_of_leadsToEmpty ha
    simpa [← hl, hd] using hf depth
  · simp [hl]

section
variable {a b : Node} (hl : a.label = b.label)
include hl

theorem Decoder.text_eq_iff :
    (ofNode a).text = (ofNode b).text ↔ a.leadsToEmpty = b.leadsToEmpty := by
  rw [ofNode_eq_ofLabel, ofNode_eq_ofLabel]
  exact Node.ofLabel_eq_iff (f := fun label empty => (ofLabel label empty).text) hl
    fun depth => text_nested_ne (depth + 1)

theorem Decoder.ofNode_eq_iff : ofNode a = ofNode b ↔ a.leadsToEmpty = b.leadsToEmpty := by
  refine ⟨fun h => (text_eq_iff hl).mp (congrArg text h), fun h => ?_⟩
  rw [ofNode_eq_ofLabel, ofNode_eq_ofLabel, hl, h]

theorem Encoder.text_eq_iff :
    (ofNode a).text = (ofNode b).text ↔ a.leadsToEmpty = b.leadsToEmpty := by
  rw [ofNode_eq_ofLabel, ofNode_eq_ofLabel]
  exact Node.ofLabel_eq_iff (f := fun label empty => (ofLabel label empty).text) hl text_nested_ne

theorem Encoder.ofNode_eq_iff : ofNode a = ofNode b ↔ a.leadsToEmpty = b.leadsToEmpty := by
  refine ⟨fun h => (text_eq_iff hl).mp (congrArg text h), fun h => ?_⟩
  rw [ofNode_eq_ofLabel, ofNode_eq_ofLabel, hl, h]

end

-- ---------------------------------------------------------------------------
-- Items with one label
-- ---------------------------------------------------------------------------

namespace Node

/-- A representative can stand for all items with its label, the first item of a uniform
list for all items, exactly if they lead to an empty list whenever it does. -/
theorem codecsByLabel_iff (root : Node) :
    (∀ a b : Node, a.label = b.label →
      (Decoder.ofNode a = .ofNode b ↔ a.leadsToEmpty = b.leadsToEmpty) ∧
        ((Decoder.ofNode a).text = (Decoder.ofNode b).text ↔ a.leadsToEmpty = b.leadsToEmpty) ∧
        (Encoder.ofNode a = .ofNode b ↔ a.leadsToEmpty = b.leadsToEmpty) ∧
        ((Encoder.ofNode a).text = (Encoder.ofNode b).text ↔ a.leadsToEmpty = b.leadsToEmpty)) ∧
    (∀ node : Node, node.leadsToEmpty = true → ∃ depth, node.label = .nested (depth + 1)) ∧
    (∀ first rest, isMixed (first :: rest) = false →
      representatives (first :: rest) = [(first.label, first)]) ∧
    (root.CodecsByLabel ↔ ∀ path items, list path items ∈ root.preorder →
      ∀ r ∈ representatives items, ∀ item ∈ items, item.label = r.1 →
        item.leadsToEmpty = r.2.leadsToEmpty) := by
  refine ⟨fun a b hl => ⟨Decoder.ofNode_eq_iff hl, Decoder.text_eq_iff hl,
    Encoder.ofNode_eq_iff hl, Encoder.text_eq_iff hl⟩, label_of_leadsToEmpty,
    fun _ _ => representatives_uniform, fun h => ?_, fun h => ?_⟩
  · intro path items hp r hr item hi hl
    obtain ⟨hm, hrl⟩ := mem_representatives hr
    rw [hrl] at hl
    exact (Decoder.ofNode_eq_iff hl).mp (h path items hp item hi r.2 hm hl).1
  · intro path items hp a ha b hb hl
    obtain ⟨first, hf⟩ := exists_representative ha
    have hempty : a.leadsToEmpty = b.leadsToEmpty :=
      (h path items hp _ hf a ha rfl).trans (h path items hp _ hf b hb hl.symm).symm
    exact ⟨(Decoder.ofNode_eq_iff hl).mpr hempty, (Encoder.ofNode_eq_iff hl).mpr hempty⟩

/-- `[[], [null]]` -/
def emptyBesideNull : Node := .annotate (.ofRoot "Root") (.list [.list [], .list [.null]])

/-- One label, `List ()`, but the first item is decoded as a list of anything. -/
theorem not_codecsByLabel : ¬ emptyBesideNull.CodecsByLabel := by
  intro h
  have hcodecs := h _ _ emptyBesideNull.mem_preorder_self _ List.mem_cons_self _
    (List.mem_cons_of_mem _ List.mem_cons_self) rfl
  cases hcodecs.1

end Node

end ElmCodec
