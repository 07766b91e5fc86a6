import ElmCodec.Proofs.Annotation
import ElmCodec.Proofs.Evaluation

/-!
# What a codec takes and keeps

The codec made for a node takes values of the node's structure. It loses what
the node gives it no place for: the members that an object does not have, the
items of a list without items, and in a list of several labels whatever an item
holds beyond the first alternative that takes it.
-/

namespace ElmCodec

-- ---------------------------------------------------------------------------
-- Values up to the order of members
-- ---------------------------------------------------------------------------

mutual

def Json.sorted : Json → Json
  | list items => .list (sortedItems items)
  | object members => .object (Members.sort (sortedMembers members))
  | json => json

def Json.sortedItems : List Json → List Json
  | [] => []
  | item :: rest => item.sorted :: sortedItems rest

def Json.sortedMembers : List (String × Json) → List (String × Json)
  | [] => []
  | (key, value) :: rest => (key, value.sorted) :: sortedMembers rest

end

namespace Json

theorem sorted_list (items : List Json) : (list items).sorted = .list (items.map sorted) := by
  have h : sortedItems items = items.map sorted := by
    induction items with
    | nil => rfl
    | cons item rest ih => simp [sortedItems, ih]
  rw [sorted, h]

theorem sorted_object (members : List (String × Json)) :
    (object members).sorted = .object (Members.sort (members.map fun m => (m.1, m.2.sorted))) := by
  have h : sortedMembers members = members.map fun m => (m.1, m.2.sorted) := by
    induction members with
    | nil => rfl
    | cons member rest ih => simp [sortedMembers, ih]
  rw [sorted, h]

inductive Distinct : Json → Prop
  | null : Distinct .null
  | boolean : Distinct (.boolean value)
  | number : Distinct (.number value)
  | string : Distinct (.string text)
  | list : (∀ item ∈ items, Distinct item) → Distinct (.list items)
  | object : (members.map (·.1)).Nodup → (∀ m ∈ members, Distinct m.2) → Distinct (.object members)

theorem Distinct.of_list (h : Distinct (.list items)) : ∀ item ∈ items, item.Distinct := by
  cases h with
  | list h => exact h

theorem Distinct.nodup_keys (h : Distinct (.object members)) : (members.map (·.1)).Nodup := by
  cases h with
  | object h _ => exact h

theorem Distinct.of_object (h : Distinct (.object members)) : ∀ m ∈ members, m.2.Distinct := by
  cases h with
  | object _ h => exact h

def memberCount : Json → Option Nat
  | object members => some members.length
  | _ => none

/-- Some members of an object, each written as `written` has it, are the whole
object if they are as many as its members and none was changed. -/
theorem sorted_object_eq_iff {key : α → String} {source written : α → Json} {l : List α}
    {members : List (String × Json)} (hk : (l.map key).Nodup) (hm : (members.map (·.1)).Nodup)
    (hs : ∀ a ∈ l, (key a, source a) ∈ members) :
    (object (l.map fun a => (key a, written a))).sorted = (object members).sorted ↔
      (∀ a ∈ l, (written a).sorted = (source a).sorted) ∧ members.length = l.length := by
  have hkeys : ((l.map fun a => (key a, (written a).sorted)).map (·.1)).Nodup := by
    rw [List.map_map]
    exact hk
  rw [sorted_object, sorted_object, object.injEq, List.map_map]
  rw [show (fun m : String × Json => (m.1, m.2.sorted)) ∘ (fun a => (key a, written a)) =
    fun a => (key a, (written a).sorted) from rfl, Members.sort_eq_sort hkeys]
  constructor
  · intro hp
    refine ⟨fun a ha => ?_, by simpa using hp.length_eq.symm⟩
    -- The member with the written value has the key of the source, so it is the source.
    obtain ⟨m, hmm, he⟩ := List.mem_map.mp (hp.mem_iff.mp (List.mem_map_of_mem ha))
    obtain ⟨he, hw⟩ := Prod.mk.inj he
    obtain rfl := List.inj_on_of_nodup_map hm hmm (hs a ha) he
    exact hw.symm
  · rintro ⟨hw, hlen⟩
    have hsub : (l.map fun a => (key a, source a)).Subperm members := by
      refine List.subperm_of_subset (.of_map (·.1) ?_) fun m hmm => ?_
      · rw [List.map_map]
        exact hk
      · obtain ⟨a, ha, rfl⟩ := List.mem_map.mp hmm
        exact hs a ha
    have hp := (hsub.perm_of_length_le (by simp [hlen])).map fun m => (m.1, m.2.sorted)
    rw [List.map_map] at hp
    refine .trans (.of_eq (List.map_congr_left fun a ha => ?_)) hp
    rw [hw a ha]
    rfl

end Json

-- ---------------------------------------------------------------------------
-- Alternatives
-- ---------------------------------------------------------------------------

namespace Label

def firsts : List (Label × α) → List (Label × α)
  | [] => []
  | entry :: rest => entry :: (firsts rest).filter fun later => later.1 ≠ entry.1

def alternatives (entries : List (Label × α)) : List (Label × α) :=
  sortBy (fun a b => (a.1.compare b.1).isLE) (firsts entries)

theorem firsts_map (f : Node → α) (items : List Node) :
    firsts (items.map fun item => (item.label, f item)) =
      (Node.firsts items).map fun r => (r.1, f r.2) := by
  induction items with
  | nil => rfl
  | cons item rest ih =>
    simp only [List.map_cons, firsts, Node.firsts, ih, List.filter_map]
    rfl

theorem alternatives_map (f : Node → α) (items : List Node) :
    alternatives (items.map fun item => (item.label, f item)) =
      (Node.representatives items).map fun r => (r.1, f r.2) := by
  rw [alternatives, firsts_map, sortBy_map]
  rfl

end Label

namespace Node

section
variable {f : Node → Node} {items : List Node}
  (h : ∀ item ∈ items, (f item).label = item.label)
include h

theorem isMixed_map : isMixed (items.map f) = isMixed items := by
  have hl : labels (items.map f) = labels items := by
    rw [labels_eq_map, labels_eq_map, List.map_map]
    exact List.map_congr_left h
  rw [isMixed, isMixed, hl]

theorem representatives_map :
    representatives (items.map f) = (representatives items).map fun r => (r.1, f r.2) := by
  have hl : (items.map f).map (fun item => (item.label, item)) =
      items.map fun item => (item.label, f item) := by
    rw [List.map_map]
    exact List.map_congr_left fun item hi => congrArg (·, f item) (h item hi)
  have hr := Label.alternatives_map id (items.map f)
  simp only [id] at hr
  rw [hl, Label.alternatives_map f] at hr
  simpa using hr.symm

end

end Node

-- ---------------------------------------------------------------------------
-- Taking and keeping
-- ---------------------------------------------------------------------------

def Scalar.fits : Scalar → Json → Bool
  | null, .null | boolean _, .boolean _ | number _, .number _ | string _, .string _ => true
  | _, _ => false

/-- How the first alternative that takes an item reads it. Nothing is known of
the items of a list without items, so all are taken and none is kept. -/
def Label.readItem (readers : List (Label × (Json → Option Bool))) (json : Json) : Option Bool :=
  if readers.isEmpty then some false
  else (alternatives readers).findSome? fun reader => reader.2 json

namespace Node

mutual

/-- Whether the codec made for a node takes a value, and then whether it keeps
all of it. -/
def reads : Node → Json → Option Bool
  | scalar _ value, json => if value.fits json then some true else none
  | list _ items, .list values =>
    (values.mapM (Label.readItem (itemReaders items))).map (·.all id)
  | list .., _ => none
  | object _ members, json =>
    ((Members.sort (memberReaders members)).mapM fun m => (json.member? m.1).bind m.2).map
      fun kept => kept.all id && json.memberCount = some members.length

def itemReaders : List Node → List (Label × (Json → Option Bool))
  | [] => []
  | item :: rest => (item.label, item.reads) :: itemReaders rest

def memberReaders : List (String × Node) → List (String × (Json → Option Bool))
  | [] => []
  | (key, node) :: rest => (key, node.reads) :: memberReaders rest

end

theorem itemReaders_eq_map (items : List Node) :
    itemReaders items = items.map fun item => (item.label, item.reads) := by
  induction items with
  | nil => rfl
  | cons item rest ih => simp [itemReaders, ih]

theorem memberReaders_eq_map (members : List (String × Node)) :
    memberReaders members = members.map fun m => (m.1, m.2.reads) := by
  induction members with
  | nil => rfl
  | cons member rest ih => simp [memberReaders, ih]

theorem reads_list_nil (path : Path) (values : List Json) :
    (list path []).reads (.list values) = some values.isEmpty := by
  have h : values.mapM (Label.readItem (itemReaders [])) = some (values.map fun _ => false) :=
    mapM_eq_some_map fun _ _ => rfl
  rw [reads, h]
  cases values <;> simp

theorem reads_list_cons (path : Path) (first : Node) (rest : List Node) (values : List Json) :
    (list path (first :: rest)).reads (.list values) =
      (values.mapM fun value => (representatives (first :: rest)).findSome? fun r =>
        r.2.reads value).map (·.all id) := by
  have h : Label.readItem (itemReaders (first :: rest)) = fun value =>
      (representatives (first :: rest)).findSome? fun r => r.2.reads value := by
    funext value
    rw [Label.readItem, itemReaders_eq_map, Label.alternatives_map, List.findSome?_map]
    rfl
  rw [reads, h]

theorem firsts_uniform (h : isMixed (first :: rest) = false) :
    firsts (first :: rest) = [(first.label, first)] := by
  rw [firsts, List.filter_eq_nil_iff.mpr]
  intro r hr
  obtain ⟨hm, hl⟩ := mem_firsts hr
  simpa using hl.trans (label_eq_of_not_mixed h (List.mem_cons_of_mem _ hm) List.mem_cons_self)

theorem representatives_uniform (h : isMixed (first :: rest) = false) :
    representatives (first :: rest) = [(first.label, first)] := by
  rw [representatives, firsts_uniform h]
  rfl

theorem reads_list_uniform (path : Path) (h : isMixed (first :: rest) = false)
    (values : List Json) : (list path (first :: rest)).reads (.list values) =
      (values.mapM first.reads).map (·.all id) := by
  rw [reads_list_cons, representatives_uniform h]
  simp

theorem reads_object (path : Path) (members : List (String × Node)) (json : Json) :
    (object path members).reads json =
      ((Members.sort members).mapM fun m => (json.member? m.1).bind m.2.reads).map fun kept =>
        kept.all id && json.memberCount = some members.length := by
  rw [reads, memberReaders_eq_map, Members.sort_map fun m : String × Node => m.2.reads,
    List.mapM_map]
  rfl

end Node

end ElmCodec
