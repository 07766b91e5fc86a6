import ElmCodec.Proofs.Alike
import Mathlib.Data.List.Induction

/-!
# Members as they are written

Each key keeps the value last written for it. Together with distinct keys that
decides the members up to their order, so an object made of written members is
alike every object with those values.
-/

namespace ElmCodec

open List (Forall₂)

namespace Members

variable {members written : List (String × α)}

theorem nodup_keys_set (h : (members.map (·.1)).Nodup) (key : String) (value : α) :
    ((set key value members).map (·.1)).Nodup := by
  rw [keys_set]
  split
  · exact h
  · rename_i hk
    refine List.nodup_append.mpr ⟨h, List.nodup_singleton key, fun name hn other ho => ?_⟩
    rintro rfl
    exact hk (List.mem_singleton.mp ho ▸ hn)

theorem ofWritten_append (written : List (String × α)) (key : String) (value : α) :
    ofWritten (written ++ [(key, value)]) = set key value (ofWritten written) := by
  simp [ofWritten]

theorem nodup_keys_ofWritten (written : List (String × α)) :
    ((ofWritten written).map (·.1)).Nodup := by
  induction written using List.reverseRecOn with
  | nil => exact List.nodup_nil
  | append_singleton written member ih =>
    rw [ofWritten_append]
    exact nodup_keys_set ih member.1 member.2

theorem lookup_ofWritten (written : List (String × α)) (key : String) :
    (ofWritten written).lookup key = written.reverse.lookup key := by
  induction written using List.reverseRecOn with
  | nil => rfl
  | append_singleton written member ih =>
    obtain ⟨name, value⟩ := member
    rw [ofWritten_append, lookup_set, ih, List.reverse_append, List.reverse_singleton,
      List.singleton_append, lookup_cons_eq_ite]

theorem perm_of_lookup_eq {others : List (String × α)} (hm : (members.map (·.1)).Nodup)
    (ho : (others.map (·.1)).Nodup) (h : ∀ key, members.lookup key = others.lookup key) :
    members.Perm others := by
  refine (List.perm_ext_iff_of_nodup hm.of_map ho.of_map).mpr fun member => ?_
  constructor
  · intro hmem
    exact mem_of_lookup ((h member.1).symm.trans (lookup_of_mem hm hmem))
  · intro hmem
    exact mem_of_lookup ((h member.1).trans (lookup_of_mem ho hmem))

section
variable {R : α → β → Prop} {others : List (String × β)}

theorem forall₂_set (hab : R a b)
    (h : Forall₂ (fun m n => m.1 = n.1 ∧ R m.2 n.2) members others) :
    Forall₂ (fun m n => m.1 = n.1 ∧ R m.2 n.2) (set key a members) (set key b others) := by
  induction h with
  | nil => exact .cons ⟨rfl, hab⟩ .nil
  | @cons m n rest others hmn h ih =>
    obtain ⟨name, value⟩ := m
    obtain ⟨other, old⟩ := n
    obtain ⟨rfl, hv⟩ := hmn
    simp only [set]
    split
    · exact .cons ⟨rfl, hab⟩ h
    · exact .cons ⟨rfl, hv⟩ ih

theorem forall₂_ofWritten (h : Forall₂ (fun m n => m.1 = n.1 ∧ R m.2 n.2) written others) :
    Forall₂ (fun m n => m.1 = n.1 ∧ R m.2 n.2) (ofWritten written) (ofWritten others) := by
  refine List.rel_foldl (fun members others hm m n hmn => ?_) .nil h
  obtain ⟨name, value⟩ := m
  obtain ⟨other, old⟩ := n
  obtain ⟨rfl, hv⟩ := hmn
  exact forall₂_set hv hm

end

end Members

/-- Members that are written make an object alike every object in which each key has the
value last written for it. -/
theorem Json.Alike.written {found written members : List (String × Json)}
    (h : Forall₂ (fun m n => m.1 = n.1 ∧ m.2.Alike n.2) found written)
    (hd : (members.map (·.1)).Nodup)
    (hl : ∀ key, members.lookup key = written.reverse.lookup key) :
    (Json.object (Members.ofWritten found)).Alike (.object members) := by
  have hsort : Members.sort (Members.ofWritten written) = Members.sort members := by
    refine (Members.sort_eq_sort (Members.nodup_keys_ofWritten written)).mpr ?_
    refine Members.perm_of_lookup_eq (Members.nodup_keys_ofWritten written) hd fun key => ?_
    rw [Members.lookup_ofWritten, hl]
  refine .object ?_
  rw [← hsort]
  exact Members.forall₂_sort (Members.forall₂_ofWritten h)

end ElmCodec
