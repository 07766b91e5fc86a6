import ElmCodec.Node.Labels
import ElmCodec.Proofs.Sorting
import Mathlib.Data.List.Pairwise

/-!
# Labels of lists

A list is mixed when two of its items have different labels. The label of a
uniform list comes from its first item, that of a mixed one from its path. Each
label of an item has one representative, the first item that carries it.
-/

namespace ElmCodec

namespace Label

/-- The generated type names in a label. -/
def names : Label → List String
  | named name => [name]
  | list item => item.names
  | _ => []

@[simp] theorem names_named (name : String) : (named name).names = [name] := rfl
@[simp] theorem names_list (item : Label) : (list item).names = item.names := rfl
@[simp] theorem names_unit : unit.names = [] := rfl

end Label

@[simp] theorem Scalar.names_label (value : Scalar) : value.label.names = [] := by
  cases value <;> rfl

-- ---------------------------------------------------------------------------
-- Runs of equal elements
-- ---------------------------------------------------------------------------

section
variable [BEq α]

theorem eraseReps_loop_eq (a : α) (l done : List α) :
    List.eraseRepsBy.loop (· == ·) a l done = done.reverse ++ (a :: l).eraseReps := by
  change _ = done.reverse ++ List.eraseRepsBy.loop (· == ·) a l []
  induction l generalizing a done with
  | nil => simp [List.eraseRepsBy.loop]
  | cons b l ih =>
    simp only [List.eraseRepsBy.loop]
    split
    · exact ih a done
    · rw [ih b (a :: done), ih b [a]]
      simp

theorem eraseReps_cons_cons (a b : α) (l : List α) :
    (a :: b :: l).eraseReps = if a == b then (a :: l).eraseReps else a :: (b :: l).eraseReps := by
  change List.eraseRepsBy.loop (· == ·) a (b :: l) [] = _
  rw [List.eraseRepsBy.loop]
  cases a == b with
  | true => rfl
  | false => exact eraseReps_loop_eq b l [a]

variable [LawfulBEq α]

theorem mem_eraseReps {l : List α} : x ∈ l.eraseReps ↔ x ∈ l := by
  cases l with
  | nil => rfl
  | cons a l =>
    induction l generalizing a with
    | nil => rfl
    | cons b l ih =>
      rw [eraseReps_cons_cons]
      split
      · rename_i h
        simp [ih, eq_of_beq h]
      · simp [ih]

theorem pairwise_eraseReps {r s : α → α → Prop} {l : List α} (hr : l.Pairwise r)
    (hs : ∀ a ∈ l, ∀ b ∈ l, r a b → a ≠ b → s a b) (htrans : ∀ a b c, s a b → r b c → s a c) :
    l.eraseReps.Pairwise s := by
  cases l with
  | nil => exact .nil
  | cons a l =>
    induction l generalizing a with
    | nil => exact List.pairwise_singleton _ _
    | cons b l ih =>
      obtain ⟨ha, hrest⟩ := List.pairwise_cons.mp hr
      have hsrest : ∀ c ∈ b :: l, ∀ d ∈ b :: l, r c d → c ≠ d → s c d := fun c hc d hd =>
        hs c (List.mem_cons_of_mem _ hc) d (List.mem_cons_of_mem _ hd)
      rw [eraseReps_cons_cons]
      split
      · rename_i hab
        obtain rfl := eq_of_beq hab
        exact ih a hrest hsrest
      · rename_i hab
        refine List.pairwise_cons.mpr ⟨fun c hc => ?_, ih b hrest hsrest⟩
        have hb : s a b := hs a (by simp) b (by simp) (ha b (by simp)) (by simpa using hab)
        rcases List.mem_cons.mp (mem_eraseReps.mp hc) with rfl | hc
        · exact hb
        · exact htrans a b c hb ((List.pairwise_cons.mp hrest).1 c hc)

theorem eraseReps_of_all {a : α} {l : List α} (hl : l ≠ []) (h : ∀ b ∈ l, b = a) :
    l.eraseReps = [a] := by
  obtain ⟨n, rfl⟩ : ∃ n, l = List.replicate n a := ⟨_, List.eq_replicate_iff.mpr ⟨rfl, h⟩⟩
  match n with
  | 0 => exact absurd rfl hl
  | n + 1 =>
    clear hl h
    induction n with
    | zero => rfl
    | succ n ih => rw [List.replicate_succ, List.replicate_succ, eraseReps_cons_cons,
        if_pos BEq.rfl, ← List.replicate_succ, ih]

theorem one_lt_length_eraseReps {a b : α} {l : List α} (ha : a ∈ l) (hb : b ∈ l) (hne : a ≠ b) :
    1 < l.eraseReps.length := by
  have ha := mem_eraseReps.mpr ha
  have hb := mem_eraseReps.mpr hb
  match hl : l.eraseReps with
  | [] => simp [hl] at ha
  | [c] =>
    rw [hl, List.mem_singleton] at ha hb
    exact absurd (ha.trans hb.symm) hne
  | _ :: _ :: _ => simp

end

-- ---------------------------------------------------------------------------
-- Mixed and uniform lists
-- ---------------------------------------------------------------------------

namespace Label

theorem mem_sort {labels : List Label} : label ∈ sort labels ↔ label ∈ labels := mem_sortBy

theorem mem_distinct {labels : List Label} : label ∈ distinct labels ↔ label ∈ labels :=
  mem_eraseReps.trans mem_sort

theorem distinct_of_all {labels : List Label} (hl : labels ≠ []) (h : ∀ b ∈ labels, b = label) :
    distinct labels = [label] := by
  refine eraseReps_of_all ?_ fun b hb => h b (mem_sort.mp hb)
  intro hs
  have := (sortBy_perm (fun a b => (compare a b).isLE) labels).length_eq
  rw [show sortBy _ labels = [] from hs] at this
  exact hl (List.length_eq_zero_iff.mp this.symm)

theorem one_lt_length_distinct {labels : List Label} (ha : a ∈ labels) (hb : b ∈ labels)
    (hne : a ≠ b) : 1 < (distinct labels).length :=
  one_lt_length_eraseReps (mem_sort.mpr ha) (mem_sort.mpr hb) hne

end Label

namespace Node

theorem mem_labels {a : Label} : a ∈ labels items ↔ ∃ item ∈ items, item.label = a := by
  simp [labels_eq_map]

theorem label_eq_of_not_mixed (h : isMixed items = false) (ha : a ∈ items) (hb : b ∈ items) :
    a.label = b.label := by
  by_contra hne
  have := Label.one_lt_length_distinct (mem_labels.mpr ⟨a, ha, rfl⟩) (mem_labels.mpr ⟨b, hb, rfl⟩)
    hne
  simp [isMixed] at h
  omega

theorem distinct_of_forall {first : Node} (h : ∀ item ∈ rest, item.label = first.label) :
    Label.distinct (labels (first :: rest)) = [first.label] := by
  refine Label.distinct_of_all (by simp [labels]) fun a ha => ?_
  obtain ⟨item, hi, rfl⟩ := mem_labels.mp ha
  rcases List.mem_cons.mp hi with rfl | hi
  · rfl
  · exact h item hi

theorem distinct_of_not_mixed (h : isMixed (first :: rest) = false) :
    Label.distinct (labels (first :: rest)) = [first.label] :=
  distinct_of_forall fun _ hi => label_eq_of_not_mixed h (List.mem_cons_of_mem _ hi)
    List.mem_cons_self

@[simp] theorem isMixed_nil : isMixed [] = false := rfl

theorem isMixed_iff : isMixed items = true ↔ ∃ a ∈ items, ∃ b ∈ items, a.label ≠ b.label := by
  constructor
  · intro h
    by_contra! hall
    cases items with
    | nil => simp at h
    | cons first rest =>
      have hd := distinct_of_forall fun item hi =>
        hall item (List.mem_cons_of_mem _ hi) first List.mem_cons_self
      simp [isMixed, hd] at h
  · rintro ⟨a, ha, b, hb, hne⟩
    by_contra h
    exact hne (label_eq_of_not_mixed (by simpa using h) ha hb)

@[simp] theorem label_scalar (path : Path) (value : Scalar) :
    (scalar path value).label = value.label := rfl

@[simp] theorem label_object (path : Path) (members : List (String × Node)) :
    (object path members).label = .named (typeName path) := rfl

@[simp] theorem label_list_nil (path : Path) : (list path []).label = .list .unit := rfl

theorem label_list_uniform (path : Path) (h : isMixed (first :: rest) = false) :
    (list path (first :: rest)).label = .list first.label := by
  simp [label, Label.ofItems, distinct_of_not_mixed h]

theorem label_list_mixed (path : Path) (h : isMixed items = true) :
    (list path items).label = .list (.named (typeName path)) := by
  have hlen : 1 < (Label.distinct (labels items)).length := by simpa [isMixed] using h
  simp only [label, Label.ofItems]
  split
  · rename_i hd; simp [hd] at hlen
  · rename_i hd; simp [hd] at hlen
  · rfl

theorem label_item {path : Path} {inner : Label} (hl : (list path items).label = .list inner)
    (hn : inner.names = []) (hi : item ∈ items) : item.label = inner := by
  cases items with
  | nil => simp at hi
  | cons first rest =>
    cases hm : isMixed (first :: rest) with
    | true =>
      rw [label_list_mixed path hm] at hl
      rw [← Label.list.inj hl] at hn
      simp at hn
    | false =>
      rw [label_list_uniform path hm] at hl
      exact (label_eq_of_not_mixed hm hi List.mem_cons_self).trans (Label.list.inj hl)

-- ---------------------------------------------------------------------------
-- Representatives
-- ---------------------------------------------------------------------------

theorem split_of_mem_firsts (h : r ∈ firsts items) :
    ∃ before after, items = before ++ r.2 :: after ∧ r.1 = r.2.label ∧
      ∀ item ∈ before, item.label ≠ r.1 := by
  induction items with
  | nil => simp [firsts] at h
  | cons item rest ih =>
    rcases List.mem_cons.mp h with rfl | h
    · exact ⟨[], rest, rfl, rfl, by simp⟩
    · obtain ⟨hr, hne⟩ := List.mem_filter.mp h
      obtain ⟨before, after, hrest, hl, hb⟩ := ih hr
      refine ⟨item :: before, after, by rw [hrest, List.cons_append], hl, ?_⟩
      exact List.forall_mem_cons.mpr ⟨fun he => by simp [he] at hne, hb⟩

theorem mem_firsts (h : r ∈ firsts items) : r.2 ∈ items ∧ r.1 = r.2.label := by
  obtain ⟨before, after, rfl, hl, -⟩ := split_of_mem_firsts h
  exact ⟨by simp, hl⟩

theorem nodup_firsts (items : List Node) : ((firsts items).map (·.1)).Nodup := by
  induction items with
  | nil => exact .nil
  | cons item rest ih =>
    rw [firsts, List.map_cons, List.nodup_cons]
    exact ⟨by simp [List.mem_map], ih.sublist (List.filter_sublist.map _)⟩

theorem exists_first (h : item ∈ items) : ∃ first, (item.label, first) ∈ firsts items := by
  induction items with
  | nil => simp at h
  | cons other rest ih =>
    by_cases hl : item.label = other.label
    · exact ⟨other, by simp [firsts, hl]⟩
    · rcases List.mem_cons.mp h with rfl | h
      · exact absurd rfl hl
      · obtain ⟨first, hf⟩ := ih h
        exact ⟨first, List.mem_cons_of_mem _ (List.mem_filter.mpr ⟨hf, by simpa using hl⟩)⟩

theorem mem_representatives (h : r ∈ representatives items) : r.2 ∈ items ∧ r.1 = r.2.label :=
  mem_firsts (mem_sortBy.mp h)

theorem exists_representative (h : item ∈ items) :
    ∃ first, (item.label, first) ∈ representatives items := by
  obtain ⟨first, hf⟩ := exists_first h
  exact ⟨first, mem_sortBy.mpr hf⟩

/-- Labels that mention a generated name belong to one item only. -/
def NamesApart (items : List Node) : Prop :=
  items.Pairwise fun a b => a.label = b.label → a.label.names = []

theorem NamesApart.names_eq_nil_at {i j : Nat} {a b : Node} (h : NamesApart items)
    (hi : items[i]? = some a) (hj : items[j]? = some b) (hne : i ≠ j) (hl : a.label = b.label) :
    a.label.names = [] := by
  obtain ⟨hilt, rfl⟩ := List.getElem?_eq_some_iff.mp hi
  obtain ⟨hjlt, rfl⟩ := List.getElem?_eq_some_iff.mp hj
  have apart := List.pairwise_iff_getElem.mp h
  rcases Nat.lt_or_gt_of_ne hne with hij | hji
  · exact apart i j hilt hjlt hij hl
  · exact hl ▸ apart j i hjlt hilt hji hl.symm

theorem NamesApart.names_eq_nil (h : NamesApart items) (ha : a ∈ items) (hb : b ∈ items)
    (hne : a ≠ b) (hl : a.label = b.label) : a.label.names = [] := by
  obtain ⟨i, hi⟩ := List.getElem?_of_mem ha
  obtain ⟨j, hj⟩ := List.getElem?_of_mem hb
  refine h.names_eq_nil_at hi hj ?_ hl
  rintro rfl
  exact hne (Option.some.inj (hi.symm.trans hj))

theorem names_firsts (h : NamesApart items) :
    (firsts items).flatMap (·.1.names) = items.flatMap (·.label.names) := by
  induction items with
  | nil => rfl
  | cons item rest ih =>
    obtain ⟨hi, hr⟩ := List.pairwise_cons.mp h
    simp only [firsts, List.flatMap_cons, ← ih hr]
    congr 1
    -- What the first item drops from the rest has its label, and so no names.
    have drop : ∀ l : List (Label × Node), (∀ r ∈ l, r ∈ firsts rest) →
        (l.filter fun later => later.1 ≠ item.label).flatMap (·.1.names) =
          l.flatMap (·.1.names) := by
      intro l hl
      induction l with
      | nil => rfl
      | cons r l ihl =>
        obtain ⟨hr, hl⟩ := List.forall_mem_cons.mp hl
        by_cases hri : r.1 = item.label
        · obtain ⟨hm, hrl⟩ := mem_firsts hr
          have hn : item.label.names = [] := hi r.2 hm (hri.symm.trans hrl)
          simpa [hri, hn] using ihl hl
        · simpa [hri] using ihl hl
    exact drop _ fun r hr => hr

theorem names_representatives (h : NamesApart items) :
    ((representatives items).flatMap (·.1.names)).Perm (items.flatMap (·.label.names)) := by
  rw [← names_firsts h]
  exact (sortBy_perm _ _).flatMap_right _

end Node

end ElmCodec
