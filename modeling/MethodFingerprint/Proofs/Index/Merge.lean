import MethodFingerprint.Proofs.Index

/-!
# What a merge keeps

`Slots.intersect` is meant for ascending lists, and an index has no others. What it does to lists in
general falls into three layers, each resting on more than the one before.

* On **any** lists it selects from both sides alike: the result is a sublist of either list, the
  sides may be exchanged, and a list merged with itself stays as it is. In a list that goes down
  again a common slot may be missed, so that nothing more can be said.
* On lists that **do not descend** it keeps every slot as often as both lists have it
  (`Slots.count_intersect`). What is dropped on one side is smaller than all that is left on the
  other. As lists that do not descend are told apart by these numbers (`Slots.eq_of_count_eq`), the
  order in which several of them are merged does not matter.
* On **ascending** lists, where every slot occurs once, this is the intersection.
-/

namespace MethodFingerprint.Slots

variable {left right third : List Slot}

/-! ### Any lists -/

/-- **The sides of a merge may be exchanged.** -/
theorem intersect_comm (left right : List Slot) : intersect left right = intersect right left := by
  fun_induction intersect left right with
  | case1 right => exact (intersect_nil_right right).symm
  | case2 a left => exact (intersect_nil_left (a :: left)).symm
  | case3 a left b right hab ih =>
    rw [intersect_cons_cons, if_neg (Nat.lt_asymm hab), if_pos hab, ih]
  | case4 a left b right hab hba ih => rw [intersect_cons_cons, if_pos hba, ih]
  | case5 a left b right hab hba ih =>
    obtain rfl : a = b := Nat.le_antisymm (Nat.not_lt.1 hba) (Nat.not_lt.1 hab)
    rw [intersect_cons_cons, if_neg hab, if_neg hab, ih]

/-- A list merged with itself stays as it is. -/
theorem intersect_self (l : List Slot) : intersect l l = l := by
  induction l with
  | nil => exact intersect_nil_left []
  | cons a l ih =>
    rw [intersect_cons_cons, if_neg (Nat.lt_irrefl a), if_neg (Nat.lt_irrefl a), ih]

/-- What a merge keeps comes from the right list as well. -/
theorem intersect_sublist_right (left right : List Slot) :
    (intersect left right).Sublist right := by
  rw [intersect_comm]
  exact intersect_sublist_left right left

/-! ### Lists that do not descend -/

theorem pairwise_le_intersect (hl : left.Pairwise (· ≤ ·)) (right : List Slot) :
    (intersect left right).Pairwise (· ≤ ·) :=
  hl.sublist (intersect_sublist_left left right)

/-- A slot that is smaller than the first of a list that does not descend is not in it. -/
theorem count_eq_zero_of_lt {a b : Slot} (hab : a < b) (hr : (b :: right).Pairwise (· ≤ ·)) :
    (b :: right).count a = 0 := by
  refine List.count_eq_zero.2 fun hmem ↦ ?_
  rcases List.mem_cons.1 hmem with rfl | hmem
  · exact Nat.lt_irrefl a hab
  · exact absurd ((List.pairwise_cons.1 hr).1 a hmem) (Nat.not_le.2 hab)

/-- Dropping a slot from one list does not matter if the other list is without it. -/
theorem min_count_cons_of_count_eq_zero {a : Slot} (ha : right.count a = 0) (s : Slot) :
    min ((a :: left).count s) (right.count s) = min (left.count s) (right.count s) := by
  rw [List.count_cons]
  by_cases hs : a = s
  · subst hs
    rw [ha, Nat.min_zero, Nat.min_zero]
  · rw [if_neg (by simpa using hs), Nat.add_zero]

/-- **A merge keeps a slot as often as both lists have it.** The smaller head is dropped, and the
other list is without it. -/
theorem count_intersect (hl : left.Pairwise (· ≤ ·)) (hr : right.Pairwise (· ≤ ·)) (s : Slot) :
    (intersect left right).count s = min (left.count s) (right.count s) := by
  fun_induction intersect left right with
  | case1 right => rw [List.count_nil, Nat.zero_min]
  | case2 a left => rw [List.count_nil, Nat.min_zero]
  | case3 a left b right hab ih =>
    rw [ih hl.of_cons hr, min_count_cons_of_count_eq_zero (count_eq_zero_of_lt hab hr)]
  | case4 a left b right hab hba ih =>
    rw [ih hl hr.of_cons, Nat.min_comm ((a :: left).count s) ((b :: right).count s),
      min_count_cons_of_count_eq_zero (count_eq_zero_of_lt hba hl), Nat.min_comm]
  | case5 a left b right hab hba ih =>
    obtain rfl : a = b := Nat.le_antisymm (Nat.not_lt.1 hba) (Nat.not_lt.1 hab)
    rw [List.count_cons, List.count_cons, List.count_cons, ih hl.of_cons hr.of_cons,
      Nat.add_min_add_right]

/-- Lists that do not descend are told apart by how often they have the slots. -/
theorem eq_of_count_eq (hl : left.Pairwise (· ≤ ·)) (hr : right.Pairwise (· ≤ ·))
    (h : ∀ s, left.count s = right.count s) : left = right :=
  (List.perm_iff_count.2 h).eq_of_pairwise (fun _ _ _ _ ↦ Nat.le_antisymm) hl hr

/-- **Three lists may be merged in either order.** -/
theorem intersect_assoc (hl : left.Pairwise (· ≤ ·)) (hr : right.Pairwise (· ≤ ·))
    (ht : third.Pairwise (· ≤ ·)) :
    intersect (intersect left right) third = intersect left (intersect right third) := by
  have hlr := pairwise_le_intersect hl right
  have hrt := pairwise_le_intersect hr third
  refine eq_of_count_eq (pairwise_le_intersect hlr third)
    (pairwise_le_intersect hl (intersect right third)) fun s ↦ ?_
  rw [count_intersect hlr ht, count_intersect hl hr, count_intersect hl hrt,
    count_intersect hr ht, Nat.min_assoc]

/-! ### All together -/

/-- **The laws of a merge.** The merge of any two lists is a sublist of both, whichever of them is
the left one, and a list merged with itself stays as it is. Of lists that do not descend it keeps
every slot as often as both have it and does not descend either, and three of them, ascending ones
as well, may be merged in either order. Of ascending lists it is the intersection, in ascending
order. -/
theorem intersect_laws (left right : List Slot) :
    (intersect left right).Sublist left ∧ (intersect left right).Sublist right ∧
      intersect left right = intersect right left ∧ intersect left left = left ∧
      (left.Pairwise (· ≤ ·) → right.Pairwise (· ≤ ·) →
        (∀ s, (intersect left right).count s = min (left.count s) (right.count s)) ∧
        (intersect left right).Pairwise (· ≤ ·) ∧
        ∀ third : List Slot, third.Pairwise (· ≤ ·) →
          intersect (intersect left right) third = intersect left (intersect right third)) ∧
      (left.Pairwise (· < ·) → right.Pairwise (· < ·) →
        (∀ s, s ∈ intersect left right ↔ s ∈ left ∧ s ∈ right) ∧
        (intersect left right).Pairwise (· < ·) ∧
        ∀ third : List Slot, third.Pairwise (· < ·) →
          intersect (intersect left right) third = intersect left (intersect right third)) := by
  have hle {l : List Slot} (h : l.Pairwise (· < ·)) : l.Pairwise (· ≤ ·) := h.imp Nat.le_of_lt
  refine ⟨intersect_sublist_left left right, intersect_sublist_right left right,
    intersect_comm left right, intersect_self left, fun hl hr ↦ ?_, fun hl hr ↦ ?_⟩
  · exact ⟨count_intersect hl hr, pairwise_le_intersect hl right,
      fun third ht ↦ intersect_assoc hl hr ht⟩
  · exact ⟨fun s ↦ mem_intersect hl hr, ascending_intersect hl,
      fun third ht ↦ intersect_assoc (hle hl) (hle hr) (hle ht)⟩

/-- The case of two lists with repeated slots, and of two without. -/
theorem intersect_laws_overlapping :
    ([1, 2, 2, 3].Pairwise (· ≤ ·) ∧ [2, 2, 2, 3, 5].Pairwise (· ≤ ·) ∧
      ∀ s, (intersect [1, 2, 2, 3] [2, 2, 2, 3, 5]).count s =
        min (List.count s [1, 2, 2, 3]) (List.count s [2, 2, 2, 3, 5])) ∧
    ([1, 2, 4].Pairwise (· < ·) ∧ [2, 3, 4].Pairwise (· < ·) ∧
      ∀ s, s ∈ intersect [1, 2, 4] [2, 3, 4] ↔ s ∈ [1, 2, 4] ∧ s ∈ [2, 3, 4]) := by
  obtain ⟨-, -, -, -, hrepeated, -⟩ := intersect_laws [1, 2, 2, 3] [2, 2, 2, 3, 5]
  obtain ⟨-, -, -, -, -, hascending⟩ := intersect_laws [1, 2, 4] [2, 3, 4]
  exact ⟨⟨by decide, by decide, (hrepeated (by decide) (by decide)).1⟩,
    ⟨by decide, by decide, (hascending (by decide) (by decide)).1⟩⟩

/-- In a list that goes down again a common slot may be missed. -/
example : intersect [2, 1] [1] = [] := by cbv

end MethodFingerprint.Slots
