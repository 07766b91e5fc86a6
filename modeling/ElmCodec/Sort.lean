/-!
# Sorting

Insertion sort by a Boolean order. It is stable: elements that the order holds
for equal stay as they were.
-/

namespace ElmCodec

/-- Puts `x` before the first element that it may stand before. -/
def insertBy (le : α → α → Bool) (x : α) : List α → List α
  | [] => [x]
  | y :: rest => if le x y then x :: y :: rest else y :: insertBy le x rest

def sortBy (le : α → α → Bool) : List α → List α
  | [] => []
  | x :: rest => insertBy le x (sortBy le rest)

end ElmCodec
