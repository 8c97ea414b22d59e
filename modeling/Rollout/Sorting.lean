/-!
Sorting lists by an order given as a test. Elements are inserted from the back, each before the
first element it does not come after, so elements the order does not tell apart keep their places.
-/

set_option autoImplicit false
set_option relaxedAutoImplicit false

namespace Rollout.Sorting

variable {α : Type}

/-- Puts an element before the first one that it may stand before. -/
def insertBy (le : α → α → Bool) (x : α) : List α → List α
  | [] => [x]
  | y :: ys => if le x y then x :: y :: ys else y :: insertBy le x ys

/-- The same elements in order; of equal ones the earlier stays first. -/
def sortBy (le : α → α → Bool) : List α → List α
  | [] => []
  | x :: xs => insertBy le x (sortBy le xs)

/-- Texts in ascending order of their characters' code points. -/
def sortTexts (l : List String) : List String :=
  sortBy (fun a b ↦ decide (a ≤ b)) l

/-- Enters something under a name into a list that is sorted by name, in place of what is there
under that name already. -/
def enter (name : String) (x : α) : List (String × α) → List (String × α)
  | [] => [(name, x)]
  | (other, y) :: rest =>
    if name < other then (name, x) :: (other, y) :: rest
    else if name = other then (name, x) :: rest
    else (other, y) :: enter name x rest

end Rollout.Sorting
