/-!
# Stable sorting

Sorting by insertion. The definitions that run import the core library only, and its merge sort does
not recurse on the structure of a list; this does, so closed terms compute.
-/

namespace Snippets

variable {α : Type}

def insertSorted (le : α → α → Bool) (a : α) : List α → List α
  | [] => [a]
  | b :: rest => if le a b then a :: b :: rest else b :: insertSorted le a rest

/-- Sorts by insertion from the right, so elements that compare equal keep their order. -/
def sortStable (le : α → α → Bool) : List α → List α
  | [] => []
  | a :: rest => insertSorted le a (sortStable le rest)

end Snippets
