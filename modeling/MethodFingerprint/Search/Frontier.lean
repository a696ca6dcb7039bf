/-!
# First in, first out

The frontier of a breadth-first walk. Values are taken from `front`, the oldest first, and put in
front of `back`, the latest first; when `front` runs out, `back` is turned round. `toList` shows the
values in the order in which they will be taken.
-/

namespace MethodFingerprint

/-- A queue. -/
structure Frontier (α : Type) where
  front : List α
  back : List α
  /-- How many values are waiting. -/
  size : Nat
  size_eq : size = front.length + back.length

namespace Frontier

variable {α : Type}

/-- The waiting values, the next one first. -/
def toList (q : Frontier α) : List α := q.front ++ q.back.reverse

/-- The frontier without items. -/
def empty : Frontier α := ⟨[], [], 0, rfl⟩

/-- Adds an item at the end. -/
def push (q : Frontier α) (a : α) : Frontier α :=
  ⟨q.front, a :: q.back, q.size + 1, by rw [q.size_eq]; simp only [List.length_cons]; omega⟩

/-- The next value and the others, if any value is waiting. -/
def pop? (q : Frontier α) : Option (α × Frontier α) :=
  match hf : q.front with
  | a :: front => some (a, ⟨front, q.back, q.size - 1, by
      rw [q.size_eq, hf, List.length_cons]; omega⟩)
  | [] => match hb : q.back.reverse with
    | [] => none
    | a :: front => some (a, ⟨front, [], q.size - 1, by
        have h := congrArg List.length hb
        rw [List.length_reverse, List.length_cons] at h
        rw [q.size_eq, hf, h, List.length_nil]; omega⟩)

theorem size_eq_length (q : Frontier α) : q.size = q.toList.length := by
  simp [toList, q.size_eq]

@[simp] theorem toList_empty : (empty : Frontier α).toList = [] := rfl

@[simp] theorem toList_push (q : Frontier α) (a : α) : (q.push a).toList = q.toList ++ [a] := by
  simp [toList, push]

/-- **What is taken was first, and the rest stay in order.** -/
theorem toList_of_pop? {q q' : Frontier α} {a : α} (h : q.pop? = some (a, q')) :
    q.toList = a :: q'.toList := by
  unfold pop? at h
  split at h
  · rename_i hf
    obtain ⟨rfl, rfl⟩ := Prod.mk.inj (Option.some.inj h)
    simp [toList, hf]
  · rename_i hf
    split at h
    · cases h
    · rename_i hb
      obtain ⟨rfl, rfl⟩ := Prod.mk.inj (Option.some.inj h)
      simp [toList, hf, hb]

/-- **Nothing is taken only when nothing waits.** -/
theorem pop?_eq_none_iff {q : Frontier α} : q.pop? = none ↔ q.toList = [] := by
  unfold pop?
  split
  · rename_i hf; simp [toList, hf]
  · rename_i hf
    split
    · rename_i hb; simp [toList, hf, hb]
    · rename_i hb; simp [toList, hf, hb]

end Frontier

end MethodFingerprint
