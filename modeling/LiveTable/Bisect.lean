/-!
# Bisection

`bisect p l` is the number of elements before the point where `p` ceases to hold,
found by halving: the element at half the length is probed, and the search goes on
in the part from it on or in the part before it. If `p` holds of a leading part of
the list and of nothing after it, the answer is the length of that part.
-/

namespace LiveTable

/-- The point where `p` ceases to hold. -/
def bisect {α : Type} (p : α → Bool) (l : List α) : Nat :=
  match l with
  | [] => 0
  | [a] => if p a then 1 else 0
  | a :: b :: rest =>
    let l := a :: b :: rest
    let half := l.length / 2
    if (l[half]?.map p).getD false then half + bisect p (l.drop half)
    else bisect p (l.take (l.length - half))
termination_by l.length
decreasing_by all_goals (simp only [List.length_drop, List.length_take, List.length_cons]; omega)

end LiveTable
