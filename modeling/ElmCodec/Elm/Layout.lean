/-!
# Layout of Elm declarations

Elm code puts each entry of a list on a line of its own, behind an opening
mark for the first entry and a separating mark for the others.
-/

namespace ElmCodec.Layout

def marked (first later : String) : List String → List String
  | [] => []
  | entry :: rest => (first ++ entry) :: rest.map (later ++ ·)

def lines (texts : List String) : String := String.join (texts.map ("\n" ++ ·))

theorem lines_nil : lines [] = "" := rfl

theorem lines_cons (first : String) (rest : List String) :
    lines (first :: rest) = "\n" ++ first ++ lines rest := by
  rw [lines, List.map_cons, String.join_cons]
  rfl

theorem lines_append (first second : List String) :
    lines (first ++ second) = lines first ++ lines second := by
  rw [lines, List.map_append, String.join_append]
  rfl

end ElmCodec.Layout
