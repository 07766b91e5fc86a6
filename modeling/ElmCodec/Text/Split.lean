/-!
# Splitting text

Parts between separators; there is always one part more than there are
separators.
-/

namespace ElmCodec.Text

def splitOn (separator : Char) : List Char → List (List Char)
  | [] => [[]]
  | c :: rest =>
    if c = separator then [] :: splitOn separator rest
    else
      match splitOn separator rest with
      | [] => [[c]]
      | part :: parts => (c :: part) :: parts

def parts (separator : Char) (text : String) : List String :=
  (splitOn separator text.toList).map String.ofList

theorem splitOn_of_not_mem (h : separator ∉ text) : splitOn separator text = [text] := by
  induction text with
  | nil => rfl
  | cons c text ih =>
    obtain ⟨hc, ht⟩ := not_or.mp (mt List.mem_cons.mpr h)
    rw [splitOn, if_neg (Ne.symm hc), ih ht]

theorem splitOn_append (h : separator ∉ text) (rest : List Char) :
    splitOn separator (text ++ separator :: rest) = text :: splitOn separator rest := by
  induction text with
  | nil => exact if_pos rfl
  | cons c text ih =>
    obtain ⟨hc, ht⟩ := not_or.mp (mt List.mem_cons.mpr h)
    rw [List.cons_append, splitOn, if_neg (Ne.symm hc), ih ht]

theorem parts_of_not_mem {text : String} (h : separator ∉ text.toList) :
    parts separator text = [text] := by
  rw [parts, splitOn_of_not_mem h, List.map_singleton, String.ofList_toList]

theorem parts_append {text : String} (h : separator ∉ text.toList) (rest : String) :
    parts separator (text ++ (String.singleton separator ++ rest)) =
      text :: parts separator rest := by
  rw [parts, String.toList_append, String.toList_append, String.toList_singleton,
    List.singleton_append, splitOn_append h, List.map_cons, String.ofList_toList]
  rfl

end ElmCodec.Text
