/-!
# Lists of slots

Inside an index a method is a number, its **slot**. The methods that share a feature are an
ascending list of slots, and the methods that share several are found by merging such lists.
-/

namespace MethodFingerprint

/-- The position of a method in an index. -/
abbrev Slot := Nat

namespace Slots

/-- The common slots of two ascending lists, by one merge: the smaller head is dropped, equal heads
are kept once. -/
def intersect : List Slot → List Slot → List Slot
  | [], _ => []
  | _ :: _, [] => []
  | a :: left, b :: right =>
    if a < b then intersect left (b :: right)
    else if b < a then intersect (a :: left) right
    else a :: intersect left right
termination_by left right => left.length + right.length

@[simp] theorem intersect_nil_left (right : List Slot) : intersect [] right = [] := by
  rw [intersect]

@[simp] theorem intersect_nil_right (left : List Slot) : intersect left [] = [] := by
  cases left <;> rw [intersect]

theorem intersect_cons_cons (a b : Slot) (left right : List Slot) :
    intersect (a :: left) (b :: right) =
      if a < b then intersect left (b :: right)
      else if b < a then intersect (a :: left) right
      else a :: intersect left right := by
  rw [intersect]

end Slots

end MethodFingerprint
