import ElmCodec.Json.Members
import Mathlib.Data.List.Sort

/-!
# Sorting keeps what it sorts

Insertion sort gives a permutation, and it commutes with changes that leave the
order alone. Members with distinct keys have one order: two sorted lists of the
same members are equal.
-/

namespace ElmCodec

theorem insertBy_eq_orderedInsert (le : α → α → Bool) (x : α) (l : List α) :
    insertBy le x l = l.orderedInsert (fun a b => le a b = true) x := by
  induction l with
  | nil => rfl
  | cons y rest ih => simp only [insertBy, List.orderedInsert_cons, ih]

theorem sortBy_eq_insertionSort (le : α → α → Bool) (l : List α) :
    sortBy le l = l.insertionSort (fun a b => le a b = true) := by
  induction l with
  | nil => rfl
  | cons x rest ih =>
    rw [sortBy, ih, insertBy_eq_orderedInsert, List.insertionSort_cons]

theorem sortBy_perm (le : α → α → Bool) (l : List α) : (sortBy le l).Perm l := by
  rw [sortBy_eq_insertionSort]
  exact List.perm_insertionSort _ l

@[simp] theorem mem_sortBy {le : α → α → Bool} {l : List α} : x ∈ sortBy le l ↔ x ∈ l :=
  (sortBy_perm le l).mem_iff

theorem sortBy_map (le : β → β → Bool) (f : α → β) (l : List α) :
    sortBy le (l.map f) = (sortBy (fun a b => le (f a) (f b)) l).map f := by
  simp only [sortBy_eq_insertionSort]
  exact (List.map_insertionSort _ _ f l (by simp)).symm

-- ---------------------------------------------------------------------------
-- Members
-- ---------------------------------------------------------------------------

namespace Members

theorem sort_perm (members : List (String × α)) : (sort members).Perm members :=
  sortBy_perm _ members

@[simp] theorem mem_sort {members : List (String × α)} : m ∈ sort members ↔ m ∈ members :=
  mem_sortBy

@[simp] theorem length_sort (members : List (String × α)) :
    (sort members).length = members.length :=
  (sort_perm members).length_eq

theorem sort_map (f : String × α → β) (members : List (String × α)) :
    sort (members.map fun m => (m.1, f m)) = (sort members).map fun m => (m.1, f m) :=
  sortBy_map _ _ members

theorem nodup_keys_sort {members : List (String × α)} (h : (members.map (·.1)).Nodup) :
    ((sort members).map (·.1)).Nodup :=
  ((sort_perm members).map _).nodup_iff.mpr h

def Ascending (members : List (String × α)) : Prop := members.Pairwise fun a b => a.1 ≤ b.1

theorem ascending_sort (members : List (String × α)) : Ascending (sort members) := by
  have : Std.Total fun a b : String × α => decide (a.1 ≤ b.1) = true :=
    ⟨fun a b => by simpa using String.le_total a.1 b.1⟩
  have : IsTrans (String × α) fun a b => decide (a.1 ≤ b.1) = true :=
    ⟨fun a b c hab hbc => by simpa using String.le_trans (by simpa using hab) (by simpa using hbc)⟩
  have h := List.pairwise_insertionSort (fun a b : String × α => decide (a.1 ≤ b.1) = true) members
  rw [sort, sortBy_eq_insertionSort]
  exact h.imp (by simp)

theorem Ascending.eq_of_perm {first second : List (String × α)} (hf : Ascending first)
    (hs : Ascending second) (hd : (first.map (·.1)).Nodup) (hp : first.Perm second) :
    first = second := by
  refine hp.eq_of_pairwise ?_ hf hs
  intro a b ha hb hab hba
  exact List.inj_on_of_nodup_map hd ha (hp.mem_iff.mpr hb) (String.le_antisymm hab hba)

theorem sort_eq_sort {first second : List (String × α)} (hd : (first.map (·.1)).Nodup) :
    sort first = sort second ↔ first.Perm second := by
  constructor
  · intro h
    exact (sort_perm first).symm.trans (h ▸ sort_perm second)
  · intro h
    exact (ascending_sort first).eq_of_perm (ascending_sort second) (nodup_keys_sort hd)
      ((sort_perm first).trans (h.trans (sort_perm second).symm))

theorem lookup_of_mem {members : List (String × α)} (hd : (members.map (·.1)).Nodup)
    (h : (key, a) ∈ members) : members.lookup key = some a := by
  induction members with
  | nil => simp at h
  | cons member rest ih =>
    obtain ⟨hm, hr⟩ := List.nodup_cons.mp hd
    rcases List.mem_cons.mp h with rfl | h
    · exact List.lookup_cons_self
    · have hne : key ≠ member.1 := by
        rintro rfl
        exact hm (List.mem_map.mpr ⟨_, h, rfl⟩)
      rw [List.lookup_cons, beq_false_of_ne hne]
      exact ih hr h

theorem mem_of_lookup {members : List (String × α)} (h : members.lookup key = some a) :
    (key, a) ∈ members := by
  obtain ⟨before, after, rfl, -⟩ := List.lookup_eq_some_iff.mp h
  simp

end Members

end ElmCodec
