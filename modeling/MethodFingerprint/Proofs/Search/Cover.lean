import MethodFingerprint.Proofs.Index.Contents
import MethodFingerprint.Proofs.Search.Greedy
import Mathlib.Algebra.Order.BigOperators.Group.List
import Mathlib.NumberTheory.Harmonic.Defs
import Mathlib.Tactic.GCongr
import Mathlib.Tactic.Linarith
import Mathlib.Tactic.Positivity

/-!
# How many features the cover takes

The cover is a greedy set cover: each step takes the feature that rules out the most of what is
left, and it stops when nothing but the target is. It takes at most a harmonic number times as many
features as are needed, by the charging argument for such covers, told here along the run of
`Greedy.cover`.

* A combination that isolates the target rules out everything else. So of what is in the way, one of
  its features rules out an even share, and the feature that is taken at least as much
  (`Greedy.Covering.length_le_mul`).
* If an even share of `k + d` is at most `d`, then to go from `k + d` down to `k` takes off the
  harmonic number what one feature costs (`one_le_mul_harmonic_sub`).

The two make the step of `Greedy.Covering.length_cover_le`. One feature is always taken, even where
nothing is in the way; with two methods at least, the bound leaves room for it. What is kept in the
end is a part of the cover (`Greedy.size_kept_le`), so the bound is one on the answer.
-/

namespace MethodFingerprint

/-! ### Harmonic numbers -/

/-- **Each of the last terms of a harmonic sum** is at least the very last one. -/
theorem div_le_harmonic_sub (k d : ℕ) :
    (d : ℚ) / (k + d : ℕ) ≤ harmonic (k + d) - harmonic k := by
  induction d with
  | zero => simp
  | succ d ih =>
    have hle : (d : ℚ) / (k + d + 1 : ℕ) ≤ (d : ℚ) / (k + d : ℕ) := by
      rcases Nat.eq_zero_or_pos d with rfl | hd
      · simp
      · refine div_le_div_of_nonneg_left (Nat.cast_nonneg d) ?_ ?_
        · exact_mod_cast Nat.add_pos_right k hd
        · exact_mod_cast Nat.le_succ (k + d)
    rw [← Nat.add_assoc, harmonic_succ, Nat.cast_succ d, add_div, one_div]
    linarith

/-- Where every one of `p` shares of a total is at most `d`, taking off `d` costs one of `p` times
what it takes off the harmonic number. -/
theorem one_le_mul_harmonic_sub {p k d : ℕ} (hpos : 0 < k + d) (h : k + d ≤ p * d) :
    (1 : ℚ) ≤ p * (harmonic (k + d) - harmonic k) := by
  have htotal : (0 : ℚ) < (k + d : ℕ) := by exact_mod_cast hpos
  calc (1 : ℚ) = (k + d : ℕ) / (k + d : ℕ) := (div_self htotal.ne').symm
    _ ≤ (p * d : ℕ) / (k + d : ℕ) := by gcongr
    _ = p * ((d : ℚ) / (k + d : ℕ)) := by rw [Nat.cast_mul, mul_div_assoc]
    _ ≤ p * (harmonic (k + d) - harmonic k) := by gcongr; exact div_le_harmonic_sub k d

/-! ### What a feature rules out -/

/-- What a merge leaves of an ascending list and what it takes away make up the list. -/
theorem Slots.length_intersect_add_countP {left right : List Slot} (hl : left.Pairwise (· < ·))
    (hr : right.Pairwise (· < ·)) :
    (intersect left right).length + left.countP (· ∉ right) = left.length := by
  have hfilter : intersect left right = left.filter (· ∈ right) :=
    ext (ascending_intersect hl) (hl.filter _) fun s ↦ by
      rw [mem_intersect hl hr, List.mem_filter, decide_eq_true_eq]
  rw [hfilter, ← List.countP_eq_length_filter, List.length_eq_countP_add_countP (· ∈ right)]
  simp only [decide_eq_true_eq]

namespace Greedy

variable {t : Target} {n : Nat} {unpicked picked kept pending c : List Ranked}
  {remaining narrowed : List Slot} {r : Ranked}

/-- If each slot of a list is ruled out by one of some features, the features rule out as many slots
in all. -/
theorem length_le_sum_countP {l : List Slot} (h : ∀ s ∈ l, ∃ r ∈ c, s ∉ r.postings) :
    l.length ≤ (c.map fun r ↦ l.countP (· ∉ r.postings)).sum := by
  induction l with
  | nil => exact Nat.zero_le _
  | cons s l ih =>
    obtain ⟨⟨r, hr, hs⟩, hl⟩ := List.forall_mem_cons.1 h
    have hone : 1 ≤ (c.map fun r ↦ if s ∉ r.postings then 1 else 0).sum := by
      refine le_trans ?_ (List.le_sum_of_mem (List.mem_map_of_mem hr))
      rw [if_pos hs]
    simp only [List.countP_cons, List.sum_map_add, decide_eq_true_eq]
    exact Nat.add_le_add (ih hl) hone

namespace Covering

/-- **An isolating combination rules out all candidates but the target.** -/
theorem length_le_sum (h : Covering t n unpicked picked remaining) (hc : t.Isolates c) :
    remaining.length ≤ (c.map fun r ↦ remaining.countP (· ∉ r.postings)).sum + 1 := by
  have hothers : ∀ s ∈ remaining.erase t.slot, ∃ r ∈ c, s ∉ r.postings := by
    intro s hs
    have hne : s ≠ t.slot := (h.ascending.nodup.mem_erase_iff.1 hs).1
    by_contra hall
    push Not at hall
    exact hne ((hc.2 s).1 hall)
  have hle := length_le_sum_countP hothers
  have hpart : (c.map fun r ↦ (remaining.erase t.slot).countP (· ∉ r.postings)).sum ≤
      (c.map fun r ↦ remaining.countP (· ∉ r.postings)).sum :=
    List.sum_le_sum fun r _ ↦ List.erase_sublist.countP_le
  have hlen := List.le_length_erase (a := t.slot) (l := remaining)
  omega

/-- **The best feature rules out its share**: no feature of an isolating combination rules out more
candidates, as one that was taken already rules out none. -/
theorem length_le_mul (ht : t.WellRanked) (h : Covering t n unpicked picked remaining)
    (hbest : best? remaining unpicked = some (r, narrowed)) (hc : t.Isolates c)
    (hsub : c ⊆ t.ranked) :
    remaining.length ≤ c.length * (remaining.length - narrowed.length) + 1 := by
  have hshare : ∀ r' ∈ c, remaining.countP (· ∉ r'.postings) ≤
      remaining.length - narrowed.length := by
    intro r' hr'
    have hsplit := Slots.length_intersect_add_countP h.ascending (ht.ascending r' (hsub hr'))
    rcases List.mem_append.1 (h.perm.mem_iff.2 (hsub hr')) with hpicked | hunpicked
    · have hzero : remaining.countP (· ∉ r'.postings) = 0 := by
        refine List.countP_eq_zero.2 fun s hs ↦ ?_
        simpa using ((h.mem_iff s).1 hs).2 r' hpicked
      omega
    · have hleast := (best?_spec hbest).2 r' hunpicked
      omega
  have hsum := List.sum_le_card_nsmul (c.map fun r' ↦ remaining.countP (· ∉ r'.postings))
    (remaining.length - narrowed.length) (List.forall_mem_map.2 hshare)
  rw [List.length_map, Nat.nsmul_eq_mul] at hsum
  exact (h.length_le_sum hc).trans (Nat.add_le_add_right hsum 1)

/-- **The cover takes few features**: to what has been taken, it adds at most as many as an
isolating combination has, times the harmonic number of the candidates that are in the way. -/
theorem length_cover_le (ht : t.WellRanked) (hn : t.slot < n)
    (h : Covering t n unpicked picked remaining) (hc : t.Isolates c) (hsub : c ⊆ t.ranked)
    (hgo : remaining.length ≤ 1 → picked ≠ []) :
    ((Greedy.cover unpicked picked remaining).1.length : ℚ) ≤
      picked.length + c.length * harmonic (remaining.length - 1) := by
  have hnonneg (m : ℕ) : 0 ≤ (c.length : ℚ) * harmonic m :=
    mul_nonneg (Nat.cast_nonneg _) (Finset.sum_nonneg fun i _ ↦ by positivity)
  fun_induction Greedy.cover unpicked picked remaining with
  | case1 => exact le_add_of_nonneg_right (hnonneg _)
  | case2 => exact le_add_of_nonneg_right (hnonneg _)
  | case3 => exact le_add_of_nonneg_right (hnonneg _)
  | case4 unpicked picked remaining hstop r narrowed hbest _ ih =>
    obtain rfl := (best?_spec hbest).1
    have hpick := h.pick ht (mem_of_best? hbest)
    have hle := ih hpick fun _ ↦ List.cons_ne_nil r picked
    have htwo : 2 ≤ remaining.length := by
      by_contra hlt
      have hone : remaining.length ≤ 1 := by omega
      exact hstop (by simp [hone, hgo hone])
    have hpos := List.length_pos_of_mem (hpick.slot_mem ht hn)
    have hshorter := (Slots.intersect_sublist_left remaining r.postings).length_le
    have hshare := h.length_le_mul ht hbest hc hsub
    -- without the target, `k` candidates are left of `k + d`
    obtain ⟨k, hk⟩ := Nat.exists_eq_add_of_le' hpos
    obtain ⟨d, hd⟩ := Nat.exists_eq_add_of_le hshorter
    have hrest : remaining.length - 1 = k + d := by omega
    have hruled : remaining.length - (Slots.intersect remaining r.postings).length = d := by omega
    rw [hruled] at hshare
    have hone := one_le_mul_harmonic_sub (p := c.length) (k := k) (d := d) (by omega) (by omega)
    rw [hrest]
    rw [List.length_cons, Nat.cast_succ, hk, Nat.add_sub_cancel] at hle
    linarith

end Covering

/-! ### Thinning out takes nothing up -/

variable {x : Index} {slot : Slot}

theorem spare_sublist : (spare x slot kept r).Sublist kept := by
  unfold spare
  split
  · exact List.Sublist.refl kept
  · dsimp only
    split
    · exact List.filter_sublist
    · exact List.Sublist.refl kept

/-- **What is kept in the end was kept at first.** -/
theorem foldl_spare_sublist : (pending.foldl (spare x slot) kept).Sublist kept := by
  induction pending generalizing kept with
  | nil => exact List.Sublist.refl kept
  | cons r pending ih => exact ih.trans spare_sublist

/-- The set of what is kept of a cover is no larger than the cover is long. -/
theorem size_kept_le :
    (FeatureSet.ofList ((picked.foldl (spare x slot) picked.reverse).map Ranked.feature)).size ≤
      picked.length :=
  calc (FeatureSet.ofList ((picked.foldl (spare x slot) picked.reverse).map Ranked.feature)).size
    _ ≤ ((picked.foldl (spare x slot) picked.reverse).map Ranked.feature).length :=
      FeatureSet.size_ofList_le _
    _ = (picked.foldl (spare x slot) picked.reverse).length := List.length_map _
    _ ≤ picked.reverse.length := foldl_spare_sublist.length_le
    _ = picked.length := List.length_reverse

end Greedy

/-! ### The greedy search -/

namespace Index

variable {x : Index} {v : FeatureView} {target : MethodId} {r s : FeatureSet}

/-- **The greedy search is not far from the best**: among at least two methods, what it finds is at
most a harmonic number times as large as any set that isolates the target. -/
theorem Presents.size_greedyFingerprint_le (h : x.Presents v) (hsize : 2 ≤ x.size)
    (hs : x.greedyFingerprint target = .ok s) (hr : v.Isolates target r) :
    (s.size : ℚ) ≤ harmonic (x.size - 1) * r.size := by
  obtain ⟨t, hok, -, rfl⟩ := greedyFingerprint_eq_ok_iff.1 hs
  have ht := Target.standsFor_of_ofIndex h hok
  have hset := Target.StandsFor.ofList_combination (ht.subset_of_isolates hr)
  have hcomb := t.combination_sublist r
  have hi : t.Isolates (t.combination r) := by
    rwa [← ht.isolates_iff_isolates _ hcomb.subset, hset]
  have hlen : (t.combination r).length = r.size := by rw [← ht.size_ofList hcomb, hset]
  have hcover := (Greedy.Covering.start t x.size).length_cover_le ht.toWellRanked
    (Target.slot_lt_size h hok) hi hcomb.subset fun hle ↦ by
      rw [List.length_range] at hle
      omega
  rw [List.length_nil, Nat.cast_zero, zero_add, List.length_range, hlen] at hcover
  refine le_trans ?_ (hcover.trans_eq (mul_comm _ _))
  exact_mod_cast Greedy.size_kept_le

/-- **The greedy search guarantees a size.** Among at least two methods, what it finds for a target
has at most `1 + 1/2 + ⋯ + 1/(n - 1)` times as many features as the smallest of the fingerprints
that the exhaustive search lists, where `n` is the number of methods. -/
theorem size_greedyFingerprint_build_le (methods : List Method) (settings : Settings)
    (target : MethodId) (hsize : 2 ≤ (build methods settings).size) (s : Fingerprint)
    (hs : (build methods settings).greedyFingerprint target = .ok s) :
    ∃ o r rest, (build methods settings).minimalFingerprints target = .ok o ∧
      o.complete = true ∧ o.fingerprints = r :: rest ∧ (∀ q ∈ rest, r.size ≤ q.size) ∧
      (s.size : ℚ) ≤ harmonic ((build methods settings).size - 1) * r.size := by
  have h := presents_build methods settings
  obtain ⟨t, hok, -⟩ := greedyFingerprint_eq_ok_iff.1 hs
  obtain ⟨o, ho, hcomplete, hanswers⟩ := h.minimalFingerprints_spec hok
  obtain ⟨r, rest, hlist⟩ :=
    hanswers.exists_first hcomplete (h.isMinimal_of_greedyFingerprint hs)
  refine ⟨o, r, rest, ho, hcomplete, hlist, fun q hq ↦ ?_, ?_⟩
  · have hq' : q ∈ o.fingerprints := hlist ▸ List.mem_cons_of_mem r hq
    exact hanswers.size_first_le hcomplete hlist (hanswers.isMinimal q hq')
  · exact h.size_greedyFingerprint_le hsize hs (hanswers.isMinimal_first hlist).1

/-- Seven methods. Two of the strings of the first, `x` and `y`, single it out, but the greedy
search takes the other three. -/
def coveredMethods : List Method :=
  [⟨"La;", "f", 1, "V", [], [], ["a", "b", "c", "x", "y"]⟩, ⟨"La;", "g", 1, "V", [], [], ["y"]⟩,
    ⟨"La;", "h", 1, "V", [], [], ["b", "c", "y"]⟩, ⟨"La;", "i", 1, "V", [], [], ["a", "b", "y"]⟩,
    ⟨"La;", "j", 1, "V", [], [], ["b", "x"]⟩, ⟨"La;", "k", 1, "V", [], [], ["a", "c", "x"]⟩,
    ⟨"La;", "l", 1, "V", [], [], ["a", "c", "x"]⟩]

/-- The case of the first of seven methods. -/
theorem size_greedyFingerprint_build_le_coveredMethods :
    2 ≤ (build coveredMethods {}).size ∧
    ∃ s, (build coveredMethods {}).greedyFingerprint ⟨"La;f()V"⟩ = .ok s ∧
      ∃ o r rest, (build coveredMethods {}).minimalFingerprints ⟨"La;f()V"⟩ = .ok o ∧
        o.complete = true ∧ o.fingerprints = r :: rest ∧ (∀ q ∈ rest, r.size ≤ q.size) ∧
        (s.size : ℚ) ≤ harmonic ((build coveredMethods {}).size - 1) * r.size := by
  have hsize : 2 ≤ (build coveredMethods {}).size := by
    rw [size_build]
    decide +kernel
  have hfeatures : Settings.featuresOf {} coveredMethods ⟨"La;f()V"⟩ =
      some (.ofList [.accessFlags 1, .returnType "V", .string "a", .string "b", .string "c",
        .string "x", .string "y"]) := by
    decide +kernel
  have h := presents_build coveredMethods {}
  obtain ⟨t, hok⟩ := Target.exists_ofIndex_eq_ok h hfeatures (by decide +kernel)
  obtain ⟨-, s, hs, -⟩ := h.greedyFingerprint_spec hok
  exact ⟨hsize, s, hs, size_greedyFingerprint_build_le coveredMethods {} ⟨"La;f()V"⟩ hsize s hs⟩

end Index

end MethodFingerprint
