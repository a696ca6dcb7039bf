import MethodFingerprint.Proofs.Search.Outcome

/-!
# Fingerprints as sorted lists

A fingerprint is made from any list of tokens, and what it is depends on the tokens alone: its list
is the given one, sorted and without equal neighbours (`FeatureSet.toList_ofList`), which is the
same for all lists with these tokens (`FeatureSet.ofList_eq_ofList_iff`).

Two tests rest on this form. Membership may be decided by halving the list, as it is ascending
(`FeatureSet.binSearchContains_toArray`). And of two fingerprints, of which the one has all tokens
of the other, the one with more tokens is the larger set, as none is counted twice
(`FeatureSet.isStrictSupersetOf_iff_not_subset`).

The order in which fingerprints are listed respects inclusion, since it looks at the sizes first: in
a sorted list every fingerprint comes after its proper parts
(`FeatureSet.idxOf_lt_of_isStrictSupersetOf`).
-/

namespace MethodFingerprint.FeatureSet

variable {r s t : FeatureSet} {xs ys : List Feature} {l : List FeatureSet}

/-! ### The list of a set -/

/-- **A set is kept as its list, sorted and without equal neighbours.** -/
theorem toList_ofList (xs : List Feature) : (ofList xs).toList =
    (xs.mergeSort fun f g ↦ !decide (g < f)).destutter (· ≠ ·) := by
  refine List.Pairwise.eq_of_mem_iff (ofList xs).ascending
    (pairwise_lt_destutter_ne (pairwise_not_lt_mergeSort xs)) fun f ↦ ?_
  rw [mem_destutter_ne, List.mem_mergeSort]
  exact mem_ofList

/-- **Lists give the same set exactly if they have the same members.** -/
theorem ofList_eq_ofList_iff : ofList xs = ofList ys ↔ ∀ f, f ∈ xs ↔ f ∈ ys := by
  constructor
  · intro h f
    rw [← mem_ofList, h, mem_ofList]
  · intro h
    refine ext fun f ↦ ?_
    rw [mem_ofList, mem_ofList, h]

/-- **Halving the list finds the members.** -/
theorem binSearchContains_toArray (s : FeatureSet) (f : Feature) :
    s.toList.toArray.binSearchContains f (fun g h ↦ decide (g < h)) = s.contains f := by
  rw [Bool.eq_iff_iff, binSearchContains_iff s.ascending, contains_iff, mem_def]

/-! ### Proper parts -/

/-- **More members, and all of the other's, is proper inclusion.** -/
theorem isStrictSupersetOf_iff_not_subset :
    s.isStrictSupersetOf t = true ↔ t ⊆ s ∧ ¬s ⊆ t := by
  rw [isStrictSupersetOf_iff, and_comm]
  refine and_congr_right fun hts ↦ ⟨fun hlt hst ↦ ?_, fun hst ↦ ?_⟩
  · rw [subset_antisymm hts hst] at hlt
    exact Nat.lt_irrefl _ hlt
  · exact size_lt_of_subset_of_ne hts fun heq ↦ hst (heq ▸ subset_refl t)

theorem isStrictSupersetOf_irrefl (s : FeatureSet) : s.isStrictSupersetOf s = false := by
  rw [Bool.eq_false_iff, Ne, isStrictSupersetOf_iff]
  exact fun h ↦ Nat.lt_irrefl _ h.1

theorem isStrictSupersetOf_trans (h : r.isStrictSupersetOf s = true)
    (h' : s.isStrictSupersetOf t = true) : r.isStrictSupersetOf t = true := by
  rw [isStrictSupersetOf_iff] at h h' ⊢
  exact ⟨h'.1.trans h.1, subset_trans h'.2 h.2⟩

/-- Inclusion of sets is inclusion of the lists they are made from. -/
theorem ofList_subset_ofList_iff : ofList xs ⊆ ofList ys ↔ xs ⊆ ys :=
  forall_congr' fun _ ↦ imp_congr mem_ofList mem_ofList

/-! ### Sorted lists of sets -/

/-- What is not listed first stands behind. -/
theorem idxOf_lt_of_not_listedFirst (h : l.Pairwise ListedFirst) (hs : s ∈ l) (ht : t ∈ l)
    (hne : t ≠ s) (hst : ¬s.ListedFirst t) : l.idxOf t < l.idxOf s := by
  have hs' : l.idxOf s < l.length := List.idxOf_lt_length_of_mem hs
  have ht' : l.idxOf t < l.length := List.idxOf_lt_length_of_mem ht
  rcases Nat.lt_trichotomy (l.idxOf t) (l.idxOf s) with hlt | heq | hlt
  · exact hlt
  · exact absurd ((List.idxOf_inj ht).1 heq) hne
  · have hlisted := List.pairwise_iff_getElem.1 h _ _ hs' ht' hlt
    rw [List.getElem_idxOf, List.getElem_idxOf] at hlisted
    exact absurd hlisted hst

/-- **Sorting puts a set after its proper parts**, as these are smaller. -/
theorem idxOf_lt_of_isStrictSupersetOf (hl : l.Nodup) (hs : s ∈ l) (ht : t ∈ l)
    (h : s.isStrictSupersetOf t = true) :
    (l.mergeSort listedBefore).idxOf t < (l.mergeSort listedBefore).idxOf s := by
  obtain ⟨hsize, -⟩ := isStrictSupersetOf_iff.1 h
  refine idxOf_lt_of_not_listedFirst (pairwise_mergeSort_listedBefore hl)
    (List.mem_mergeSort.2 hs) (List.mem_mergeSort.2 ht) ?_ fun hst ↦ ?_
  · rintro rfl
    exact Nat.lt_irrefl _ hsize
  · exact absurd hst.size_le (Nat.not_le.2 hsize)

/-! ### All together -/

/-- **Fingerprints are sets, and their order respects inclusion.** The set made from a list of
tokens is kept as that list, sorted and without equal neighbours; this is a strictly ascending list
of just these tokens, and it is the same for all lists that have them. Whether a token is a member
may be found out by halving. One set is a strict superset of another exactly if it has all tokens of
the other and not the other way round, and so no set is one of itself, and the supersets of
supersets are supersets. Different sets that are sorted by size and then by tokens go up strictly,
and each stands behind all of its proper parts. -/
theorem set_laws :
    (∀ xs ys : List Feature,
      (ofList xs).toList = (xs.mergeSort fun f g ↦ !decide (g < f)).destutter (· ≠ ·) ∧
      (ofList xs).toList.Pairwise (· < ·) ∧ (∀ f, f ∈ (ofList xs).toList ↔ f ∈ xs) ∧
      (ofList xs = ofList ys ↔ ∀ f, f ∈ xs ↔ f ∈ ys) ∧
      (∀ f, ((ofList xs).contains f = true ↔ f ∈ xs) ∧
        ((ofList xs).toList.toArray.binSearchContains f (fun g h ↦ decide (g < h)) = true ↔
          f ∈ xs)) ∧
      ((ofList xs).isStrictSupersetOf (ofList ys) = true ↔ ys ⊆ xs ∧ ¬xs ⊆ ys)) ∧
    (∀ s : Fingerprint, s.isStrictSupersetOf s = false) ∧
    (∀ r s t : Fingerprint, r.isStrictSupersetOf s = true → s.isStrictSupersetOf t = true →
      r.isStrictSupersetOf t = true) ∧
    ∀ l : List Fingerprint, l.Nodup →
      (l.mergeSort listedBefore).Perm l ∧ (l.mergeSort listedBefore).Pairwise ListedFirst ∧
      ∀ s ∈ l, ∀ t ∈ l, s.isStrictSupersetOf t = true →
        (l.mergeSort listedBefore).idxOf t < (l.mergeSort listedBefore).idxOf s := by
  refine ⟨fun xs ys ↦ ?_, isStrictSupersetOf_irrefl, fun r s t ↦ isStrictSupersetOf_trans,
    fun l hl ↦ ?_⟩
  · refine ⟨toList_ofList xs, (ofList xs).ascending, fun f ↦ mem_ofList, ofList_eq_ofList_iff,
      fun f ↦ ?_, ?_⟩
    · rw [binSearchContains_toArray, contains_iff, mem_ofList]
      exact ⟨Iff.rfl, Iff.rfl⟩
    · rw [isStrictSupersetOf_iff_not_subset, ofList_subset_ofList_iff, ofList_subset_ofList_iff]
  · exact ⟨List.mergeSort_perm l listedBefore, pairwise_mergeSort_listedBefore hl,
      fun s hs t ht ↦ idxOf_lt_of_isStrictSupersetOf hl hs ht⟩

/-- The set of the letters of a text, each as a string feature. -/
def letters (text : String) : FeatureSet :=
  ofList (text.toList.map fun c ↦ .string (String.ofList [c]))

/-- The case of three sets of which each is a part of another one. -/
theorem set_laws_letters :
    ((letters "cabac").isStrictSupersetOf (letters "cb") = true ∧
      (letters "cb").isStrictSupersetOf (letters "b") = true ∧
      (letters "cabac").isStrictSupersetOf (letters "b") = true) ∧
    [letters "cabac", letters "b", letters "cb"].Nodup ∧
      ([letters "cabac", letters "b", letters "cb"].mergeSort listedBefore).Pairwise ListedFirst ∧
      ([letters "cabac", letters "b", letters "cb"].mergeSort listedBefore).idxOf (letters "cb") <
        ([letters "cabac", letters "b", letters "cb"].mergeSort listedBefore).idxOf
          (letters "cabac") := by
  obtain ⟨-, -, htrans, hsort⟩ := set_laws
  have hnodup : [letters "cabac", letters "b", letters "cb"].Nodup := by decide
  have hsuper : (letters "cabac").isStrictSupersetOf (letters "cb") = true := by decide
  have hsuper' : (letters "cb").isStrictSupersetOf (letters "b") = true := by decide
  obtain ⟨-, hlisted, hbehind⟩ := hsort _ hnodup
  exact ⟨⟨hsuper, hsuper', htrans _ _ _ hsuper hsuper'⟩, hnodup, hlisted,
    hbehind _ (by simp) _ (by simp) hsuper⟩

/-- Neither the order of the tokens nor a repetition is kept. -/
example : (ofList [.string "b", .returnType "V", .string "a", .string "b"]).toList =
    [.returnType "V", .string "a", .string "b"] := by decide

end MethodFingerprint.FeatureSet
