/- First occurrences: a list without its repetitions, in the same order. -/
namespace PugComponents

variable {α : Type}

/-- The elements that are not yet seen, each at its first place; `same` tells when two elements count
as one. -/
def distinctFrom (same : α → α → Bool) : List α → List α → List α
  | _, [] => []
  | seen, a :: rest =>
    if seen.any (same a) then distinctFrom same seen rest
    else a :: distinctFrom same (a :: seen) rest

/-- The first occurrences of the elements of a list. -/
def distinctBy (same : α → α → Bool) (list : List α) : List α := distinctFrom same [] list

/-- The first occurrences, by equality. -/
def distinct [BEq α] (list : List α) : List α := distinctBy (· == ·) list

end PugComponents
