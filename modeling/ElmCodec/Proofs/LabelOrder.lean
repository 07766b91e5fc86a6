import ElmCodec.Naming.Identifier
import ElmCodec.Proofs.Labels

/-!
# Labels are told apart by their text

Two labels have one text only if they are equal, as long as the generated names
in them are type names and no scalar's. So the order of labels is a linear
order, labels that it leaves next to each other are equal or have different
texts, and a sorted list without repetitions is ascending.
-/

namespace ElmCodec

def scalarNames : List String := ["Bool", "Float", "String"]

namespace Label

/-- A label whose generated names are type names, and not those of scalars. -/
def WellNamed (label : Label) : Prop :=
  ∀ name ∈ label.names, isTypeName name = true ∧ name ∉ scalarNames

section
variable {a b : Label}

-- ---------------------------------------------------------------------------
-- Texts
-- ---------------------------------------------------------------------------

@[simp] theorem wellNamed_list : (list a).WellNamed ↔ a.WellNamed := Iff.rfl

theorem wellNamed_named :
    (named name).WellNamed ↔ isTypeName name = true ∧ name ∉ scalarNames := by
  simp [WellNamed]

theorem blank_not_mem_of_isTypeName (h : isTypeName name = true) : ' ' ∉ name.toList := by
  unfold isTypeName at h
  split at h
  · simp at h
  · rename_i c rest hc
    simp only [Bool.and_eq_true, List.all_eq_true] at h
    rw [hc, List.mem_cons]
    rintro (rfl | hm)
    · simp at h
    · simpa using h.2 _ hm

theorem blank_mem_text (h : a.WellNamed) : ' ' ∈ a.text.toList ↔ a.isList = true := by
  cases a with
  | named name => simpa [text, isList] using blank_not_mem_of_isTypeName (wellNamed_named.mp h).1
  | list item => simp [text, isList]
  | _ => simp [text, isList]

theorem blank_mem_atom (h : a.WellNamed) : ' ' ∈ a.atom.toList ↔ a.isList = true := by
  rw [← blank_mem_text h, atom]
  split <;> simp

theorem text_eq_of_atom_eq (ha : a.WellNamed) (hb : b.WellNamed) (h : a.atom = b.atom) :
    a.text = b.text := by
  have hlist : a.isList = b.isList := by
    rw [Bool.eq_iff_iff, ← blank_mem_atom ha, ← blank_mem_atom hb, h]
  rw [atom, atom, hlist] at h
  split at h
  · simpa using h
  · exact h

theorem isList_eq_of_text_eq (ha : a.WellNamed) (hb : b.WellNamed) (h : a.text = b.text) :
    a.isList = b.isList := by
  rw [Bool.eq_iff_iff, ← blank_mem_text ha, ← blank_mem_text hb, h]

theorem name_ne_text (h : (named name).WellNamed) (ha : a ∈ [bool, float, string, unit]) :
    name ≠ a.text := by
  rintro rfl
  obtain ⟨htype, hscalar⟩ := wellNamed_named.mp h
  simp only [List.mem_cons, List.not_mem_nil, or_false] at ha
  rcases ha with rfl | rfl | rfl | rfl <;> simp [text, scalarNames, isTypeName] at htype hscalar

theorem text_injective (ha : a.WellNamed) (hb : b.WellNamed) (h : a.text = b.text) : a = b := by
  induction a generalizing b with
  | list item ih =>
    have hlist := isList_eq_of_text_eq ha hb h
    cases b with
    | list other =>
      rw [text_list, text_list, String.append_right_inj] at h
      rw [wellNamed_list] at ha hb
      exact congrArg list (ih ha hb (text_eq_of_atom_eq ha hb h))
    | _ => simp [isList] at hlist
  | named name =>
    have hlist := isList_eq_of_text_eq ha hb h
    cases b with
    | named other => exact congrArg named h
    | list item => simp [isList] at hlist
    | _ => exact absurd h (name_ne_text ha (by simp))
  | _ =>
    have hlist := isList_eq_of_text_eq ha hb h
    cases b with
    | named name => exact absurd h.symm (name_ne_text hb (by simp))
    | list item => simp [isList] at hlist
    | _ => first | rfl | simp [text] at h

theorem atom_injective (ha : a.WellNamed) (hb : b.WellNamed) (h : a.atom = b.atom) : a = b :=
  text_injective ha hb (text_eq_of_atom_eq ha hb h)

-- ---------------------------------------------------------------------------
-- Order
-- ---------------------------------------------------------------------------

instance : Std.TransCmp compare :=
  inferInstanceAs (Std.TransCmp (compareLex (compareOn isEmptyList) (compareOn text)))

theorem compare_eq_iff (ha : a.WellNamed) (hb : b.WellNamed) : compare a b = .eq ↔ a = b := by
  constructor
  · intro h
    exact text_injective ha hb (Std.compare_eq_iff_eq.mp (Ordering.then_eq_eq.mp h).2)
  · rintro rfl
    simp [compare]

theorem compare_lt_of_ne (ha : a.WellNamed) (hb : b.WellNamed) (h : (compare a b).isLE = true)
    (hne : a ≠ b) : compare a b = .lt := by
  rcases Ordering.isLE_iff_eq_lt_or_eq_eq.mp h with h | h
  · exact h
  · exact absurd ((compare_eq_iff ha hb).mp h) hne

theorem compare_list_unit_of_ne (h : a ≠ list unit) : compare a (list unit) = .lt := by
  have he : a.isEmptyList = false := by simpa [isEmptyList] using h
  have hu : (list unit).isEmptyList = true := rfl
  simp [compare, he, hu, show Ord.compare false true = .lt from rfl]

theorem compare_list_unit (a : Label) : (compare a (list unit)).isLE = true := by
  by_cases h : a = list unit
  · simp [h, compare]
  · simp [compare_list_unit_of_ne h]

theorem compare_total (a b : Label) :
    (compare a b).isLE = true ∨ (compare b a).isLE = true := by
  rw [show compare b a = (compare a b).swap from Std.OrientedCmp.eq_swap]
  cases compare a b <;> simp

/-- A label can be told from its text, and from its text as an argument. So the order of
labels is linear. The label of a list without items is its greatest element. -/
theorem compare_linear (ha : a.WellNamed) (hb : b.WellNamed) (c : Label) :
    (a.text = b.text ↔ a = b) ∧ (a.atom = b.atom ↔ a = b) ∧ (compare a b = .eq ↔ a = b) ∧
    compare b a = (compare a b).swap ∧
    ((compare a b).isLE = true ∨ (compare b a).isLE = true) ∧
    ((compare a b).isLE = true → (compare b c).isLE = true → (compare a c).isLE = true) ∧
    (compare c (list unit)).isLE = true ∧ (c ≠ list unit → compare c (list unit) = .lt) := by
  have htext : a.text = b.text ↔ a = b := ⟨text_injective ha hb, congrArg text⟩
  have hatom : a.atom = b.atom ↔ a = b := ⟨atom_injective ha hb, congrArg atom⟩
  exact ⟨htext, hatom, compare_eq_iff ha hb, Std.OrientedCmp.eq_swap, compare_total a b,
    Std.TransCmp.isLE_trans, compare_list_unit c, compare_list_unit_of_ne⟩

/-- `List (List ())` comes before `List List`, and both before `List ()`. -/
theorem compare_linear_lists :
    (list (list unit)).text ≠ (list (named "List")).text ∧
      compare (list (list unit)) (list (named "List")) ≠ .eq ∧
      compare (list (named "List")) (list unit) = .lt ∧
      (compare (list (list unit)) (list unit)).isLE = true := by
  have hunit : (list (list unit)).WellNamed := by simp [WellNamed]
  have hname : (list (named "List")).WellNamed := wellNamed_named.mpr ⟨by decide, by decide⟩
  have hne : list (list unit) ≠ list (named "List") := by decide
  have hle : (compare (list (list unit)) (list (named "List"))).isLE = true := by decide
  obtain ⟨htext, -, heq, -, -, htrans, -, -⟩ := compare_linear hunit hname (list unit)
  obtain ⟨-, -, -, -, -, -, -, hlast⟩ := compare_linear hunit hname (list (named "List"))
  have hlt : compare (list (named "List")) (list unit) = .lt := hlast (by decide)
  exact ⟨mt htext.mp hne, mt heq.mp hne, hlt, htrans hle (by simp [hlt])⟩

end

-- ---------------------------------------------------------------------------
-- Sorted labels
-- ---------------------------------------------------------------------------

def Ascending (labels : List Label) : Prop := labels.Pairwise fun a b => compare a b = .lt

theorem pairwise_sort (labels : List Label) :
    (sort labels).Pairwise fun a b => (compare a b).isLE = true := by
  have : Std.Total fun a b : Label => (compare a b).isLE = true := ⟨compare_total⟩
  have : IsTrans Label fun a b => (compare a b).isLE = true :=
    ⟨fun _ _ _ => Std.TransCmp.isLE_trans⟩
  rw [sort, sortBy_eq_insertionSort]
  exact List.pairwise_insertionSort _ labels

section
variable {labels : List Label} (hw : ∀ a ∈ labels, a.WellNamed)
include hw

theorem ascending_distinct : Ascending (distinct labels) := by
  refine pairwise_eraseReps (pairwise_sort labels) (fun a ha b hb => ?_)
    fun _ _ _ => Std.TransCmp.lt_of_lt_of_isLE
  exact compare_lt_of_ne (hw a (mem_sort.mp ha)) (hw b (mem_sort.mp hb))

theorem ascending_sort (h : labels.Nodup) : Ascending (sort labels) := by
  have hd : (sort labels).Nodup := (sortBy_perm _ labels).nodup_iff.mpr h
  refine ((pairwise_sort labels).and hd).imp_of_mem fun ha hb ⟨hle, hne⟩ => ?_
  exact compare_lt_of_ne (hw _ (mem_sort.mp ha)) (hw _ (mem_sort.mp hb)) hle hne

end

/-- A type named like a scalar would stand between labels of the scalar. -/
example : distinct [bool, named "Bool", bool] = [bool, named "Bool", bool] := by decide +kernel

namespace Ascending

variable {first second labels : List Label}

theorem nodup (h : Ascending labels) : labels.Nodup := by
  refine h.imp fun hab => ?_
  rintro rfl
  simp [compare] at hab

theorem eq_of_mem_iff (hf : Ascending first) (hs : Ascending second)
    (h : ∀ a, a ∈ first ↔ a ∈ second) : first = second := by
  refine ((List.perm_ext_iff_of_nodup hf.nodup hs.nodup).mpr h).eq_of_pairwise ?_ hf hs
  intro a b _ _ hab hba
  exact absurd hba (Std.OrientedCmp.not_lt_of_lt hab)

theorem getLast?_list_unit (h : Ascending labels) (hm : list unit ∈ labels) :
    labels.getLast? = some (list unit) := by
  obtain ⟨before, after, rfl⟩ := List.append_of_mem hm
  cases after with
  | nil => simp
  | cons a after =>
    have hlt := (List.pairwise_cons.mp (List.pairwise_append.mp h).2.1).1 a List.mem_cons_self
    exact absurd (compare_list_unit a) (Std.OrientedCmp.not_isLE_of_lt hlt)

end Ascending

end Label

end ElmCodec
