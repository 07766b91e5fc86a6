import ElmCodec.Sort

/-!
# Members of objects

Members are pairs of a key and a value in the order in which they were written.
Keys are distinct: a key that is written again replaces the value that it had.
-/

namespace ElmCodec.Members

/-- Gives `key` a value: in the place it already has, or else at the end. -/
def set [DecidableEq κ] (key : κ) (value : α) : List (κ × α) → List (κ × α)
  | [] => [(key, value)]
  | (other, old) :: rest =>
    if other = key then (key, value) :: rest else (other, old) :: set key value rest

section
variable [DecidableEq κ]

theorem lookup_cons_eq_ite [BEq κ] [LawfulBEq κ] (key : κ) (value : α) (members : List (κ × α))
    (name : κ) : ((key, value) :: members).lookup name =
      if name = key then some value else members.lookup name := by
  by_cases h : name = key
  · simp [h]
  · rw [List.lookup_cons, beq_false_of_ne h, if_neg h]

theorem lookup_set [BEq κ] [LawfulBEq κ] (key : κ) (value : α) (members : List (κ × α))
    (name : κ) : (set key value members).lookup name =
      if name = key then some value else members.lookup name := by
  induction members with
  | nil => exact lookup_cons_eq_ite key value [] name
  | cons member rest ih =>
    obtain ⟨other, old⟩ := member
    by_cases hk : other = key
    · by_cases h : name = key <;> simp [set, lookup_cons_eq_ite, hk, h]
    · by_cases h : name = other
      · simp [set, hk, h]
      · simp [set, lookup_cons_eq_ite, hk, h, ih]

theorem keys_set (key : κ) (value : α) (members : List (κ × α)) :
    (set key value members).map (·.1) =
      if key ∈ members.map (·.1) then members.map (·.1) else members.map (·.1) ++ [key] := by
  induction members with
  | nil => simp [set]
  | cons member rest ih =>
    by_cases hm : member.1 = key
    · simp [set, hm]
    · simp only [set, if_neg hm, List.map_cons, ih, List.mem_cons, Ne.symm hm, false_or]
      split <;> rfl

end

/-- The members that are left of those written: a repeated key has its last
value in its first place. -/
def ofWritten (written : List (String × α)) : List (String × α) :=
  written.foldl (fun members (key, value) => set key value members) []

def sort (members : List (String × α)) : List (String × α) :=
  sortBy (fun a b => decide (a.1 ≤ b.1)) members

end ElmCodec.Members
