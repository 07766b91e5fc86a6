import ElmCodec.Proofs.Alike
import ElmCodec.Proofs.Reading

/-!
# The order of members does not matter

Everything that a conversion looks at in an object it looks at in the order of
the keys. So nothing tells a document from the one with its members sorted, and
documents that differ in the order of members only have one such form.
-/

namespace ElmCodec

-- ---------------------------------------------------------------------------
-- Documents up to the order of members
-- ---------------------------------------------------------------------------

namespace Json

/-- Equal up to the order of the members of objects, at any depth. -/
inductive Reordered : Json → Json → Prop
  | refl : Reordered json json
  | list : List.Forall₂ Reordered first second → Reordered (.list first) (.list second)
  | object {first middle second : List (String × Json)} :
      first.map (·.1) = middle.map (·.1) →
      List.Forall₂ Reordered (first.map (·.2)) (middle.map (·.2)) → middle.Perm second →
      Reordered (.object first) (.object second)

theorem Reordered.sorted_eq {first second : Json} (h : first.Reordered second)
    (hd : first.Distinct) : first.sorted = second.sorted := by
  induction first using Json.induct generalizing second with
  | list items ih =>
    cases h with
    | refl => rfl
    | list h =>
      rw [sorted_list, sorted_list, map_eq_map_of_forall₂ (fun _ _ he => he)
        (forall₂_imp_of_mem (fun item hi other hr => ih item hi hr (hd.of_list item hi)) h)]
  | object members ih =>
    cases h with
    | refl => rfl
    | @object _ middle _ hk hv hp =>
      have hm : members.map (fun m => (m.1, m.2.sorted)) =
          middle.map fun m => (m.1, m.2.sorted) := by
        have hs : (members.map (·.2)).map sorted = (middle.map (·.2)).map sorted := by
          refine map_eq_map_of_forall₂ (fun _ _ he => he)
            (forall₂_imp_of_mem (fun value hvalue other hr => ?_) hv)
          obtain ⟨m, hm, rfl⟩ := List.mem_map.mp hvalue
          exact ih m hm hr (hd.of_object m hm)
        rw [List.map_map, List.map_map] at hs
        rw [← List.zip_map', ← List.zip_map', hk]
        exact congrArg _ hs
      have hkeys : ((members.map fun m => (m.1, m.2.sorted)).map (·.1)).Nodup := by
        rw [List.map_map]
        exact hd.nodup_keys
      rw [sorted_object, sorted_object, (Members.sort_eq_sort hkeys).mpr (hm ▸ hp.map _)]
  | _ => cases h; rfl

end Json

theorem Members.sort_sort (members : List (String × α)) : sort (sort members) = sort members := by
  rw [sort, sortBy_eq_insertionSort]
  exact ((ascending_sort members).imp (by simp)).insertionSort_eq

/-- The sorted form is alike: objects are only looked at in the order of their keys. -/
theorem Json.alike_sorted (json : Json) : json.Alike json.sorted := by
  induction json using Json.induct with
  | list items ih =>
    rw [sorted_list]
    refine .list ?_
    rw [List.forall₂_map_right_iff, List.forall₂_same]
    exact ih
  | object members ih =>
    rw [sorted_object]
    refine .object ?_
    rw [Members.sort_sort, Members.sort_map fun m : String × Json => m.2.sorted,
      List.forall₂_map_right_iff, List.forall₂_same]
    exact fun m hm => ⟨rfl, ih m (Members.mem_sort.mp hm)⟩
  | _ => exact .refl _

-- ---------------------------------------------------------------------------
-- Conversions
-- ---------------------------------------------------------------------------

namespace Artifacts

theorem ofJson_sorted (options : Options) (value : Json) :
    ofJson options value.sorted = ofJson options value :=
  (value.alike_sorted.ofJson options).symm

/-- Documents that differ in the order of members have the same artifacts, or are
refused for the same reason. -/
theorem ofJson_reordered {first second : Json} (hd : first.Distinct)
    (h : first.Reordered second) (options : Options) :
    ofJson options first = ofJson options second := by
  rw [← ofJson_sorted options first, h.sorted_eq hd, ofJson_sorted]

def written : Json :=
  .object [("b", .list [.object [("y", .null), ("x", .string "")]]), ("a", .null)]

/-- Members have changed places in the document and in an item of its list. -/
def rewritten : Json :=
  .object [("a", .null), ("b", .list [.object [("x", .string ""), ("y", .null)]])]

theorem distinct_written : written.Distinct := by
  have hitem : (Json.object [("y", .null), ("x", .string "")]).Distinct := by
    refine .object (by decide) (List.forall_mem_cons.mpr ⟨.null, ?_⟩)
    exact List.forall_mem_cons.mpr ⟨.string, nofun⟩
  refine .object (by decide) (List.forall_mem_cons.mpr ⟨.list ?_, ?_⟩)
  · exact List.forall_mem_cons.mpr ⟨hitem, nofun⟩
  · exact List.forall_mem_cons.mpr ⟨.null, nofun⟩

theorem reordered_written : written.Reordered rewritten := by
  have hitem : (Json.object [("y", .null), ("x", .string "")]).Reordered
      (.object [("x", .string ""), ("y", .null)]) :=
    .object rfl (.cons .refl (.cons .refl .nil)) (.swap _ _ _)
  have hp : List.Perm
      [("b", Json.list [.object [("x", .string ""), ("y", .null)]]), ("a", Json.null)]
      [("a", .null), ("b", .list [.object [("x", .string ""), ("y", .null)]])] := .swap _ _ _
  refine .object ?_ ?_ hp
  · rfl
  · exact .cons (.list (.cons hitem .nil)) (.cons .refl .nil)

theorem ofJson_reordered_written :
    written.Distinct ∧ written.Reordered rewritten ∧ ofJson {} written = ofJson {} rewritten :=
  ⟨distinct_written, reordered_written, ofJson_reordered distinct_written reordered_written {}⟩

end Artifacts

end ElmCodec
