import MethodFingerprint.Proofs.Search.Outcome
import MethodFingerprint.Search.Greedy

/-!
# One of the minimal fingerprints

The greedy search covers and then thins out, and each half has its invariant.

* While covering, the candidates are what the features taken so far leave (`Greedy.Covering`). As
  all features of the target isolate it, there is always one that narrows several candidates down,
  so the loop cannot stop before the target is left alone (`Greedy.Covering.cover`).
* While thinning out, every feature that is kept is still to come or is needed
  (`Greedy.Thinned`). A feature that was needed once stays so when further ones are dropped, since
  isolation goes upwards; one pass is therefore enough (`Greedy.Thinned.isMinimal`).

`Index.Presents.greedyFingerprint_spec` puts the halves together.
-/

namespace MethodFingerprint

namespace Greedy

variable {t : Target} {n : Nat} {unpicked picked kept pending : List Ranked} {remaining : List Slot}
  {r : Ranked}

/-! ### Covering -/

/-- There is a best feature unless there is no feature at all. -/
theorem best?_eq_none_iff : best? remaining unpicked = none ↔ unpicked = [] := by
  cases unpicked with
  | nil => simp [best?]
  | cons r rest =>
    refine iff_of_false ?_ (List.cons_ne_nil r rest)
    rw [best?]
    split
    · exact Option.some_ne_none _
    · split
      · exact Option.some_ne_none _
      · exact Option.some_ne_none _

/-- **The best feature**: no other leaves fewer candidates. -/
theorem best?_spec {narrowed : List Slot} (h : best? remaining unpicked = some (r, narrowed)) :
    narrowed = Slots.intersect remaining r.postings ∧
      ∀ r' ∈ unpicked, narrowed.length ≤ (Slots.intersect remaining r'.postings).length := by
  induction unpicked generalizing r narrowed with
  | nil => cases h
  | cons r₀ rest ih =>
    simp only [best?] at h
    split at h
    · rename_i hnone
      obtain ⟨rfl, rfl⟩ := Prod.mk.inj (Option.some.inj h)
      rw [best?_eq_none_iff.1 hnone]
      exact ⟨rfl, fun r' hr' ↦ by rw [List.mem_singleton.1 hr']⟩
    · rename_i r₁ narrowed₁ hbest
      obtain ⟨heq, hle⟩ := ih hbest
      split at h
      · rename_i hlt
        obtain ⟨rfl, rfl⟩ := Prod.mk.inj (Option.some.inj h)
        refine ⟨heq, fun r' hr' ↦ ?_⟩
        rcases List.mem_cons.1 hr' with rfl | hr'
        · exact hlt.le
        · exact hle r' hr'
      · -- of features equally good the first one is taken
        rename_i hge
        obtain ⟨rfl, rfl⟩ := Prod.mk.inj (Option.some.inj h)
        refine ⟨rfl, fun r' hr' ↦ ?_⟩
        rcases List.mem_cons.1 hr' with rfl | hr'
        · exact Nat.le_refl _
        · exact (Nat.le_of_not_lt hge).trans (hle r' hr')

/-- Where there is nothing to take, the cover ends. -/
theorem cover_of_best?_eq_none (hgo : ¬(decide (remaining.length ≤ 1) && !picked.isEmpty) = true)
    (hbest : best? remaining unpicked = none) :
    cover unpicked picked remaining = (picked, remaining) := by
  rw [cover, if_neg hgo]
  split
  · rfl
  · rename_i heq
    rw [hbest] at heq
    cases heq

/-- The best feature is taken unless it narrows nothing down. -/
theorem cover_of_best?_eq_some (hgo : ¬(decide (remaining.length ≤ 1) && !picked.isEmpty) = true)
    {narrowed : List Slot} (hbest : best? remaining unpicked = some (r, narrowed)) :
    cover unpicked picked remaining =
      if narrowed.length = remaining.length && !picked.isEmpty then (picked, remaining)
      else cover (unpicked.erase r) (r :: picked) narrowed := by
  rw [cover, if_neg hgo]
  split
  · rename_i heq
    rw [hbest] at heq
    cases heq
  · rename_i heq
    rw [hbest] at heq
    cases heq
    rfl

/-- What holds in the course of the cover: every feature is taken or not, and the candidates are the
slots below a bound that all features taken share. -/
structure Covering (t : Target) (n : Nat) (unpicked picked : List Ranked) (remaining : List Slot) :
    Prop where
  perm : (picked ++ unpicked).Perm t.ranked
  ascending : remaining.Pairwise (· < ·)
  mem_iff : ∀ s, s ∈ remaining ↔ s < n ∧ ∀ r ∈ picked, s ∈ r.postings

namespace Covering

theorem start (t : Target) (n : Nat) : Covering t n t.ranked [] (List.range n) where
  perm := .refl _
  ascending := List.pairwise_lt_range
  mem_iff s := by simp

theorem picked_subset (h : Covering t n unpicked picked remaining) : picked ⊆ t.ranked :=
  fun _ hr ↦ h.perm.subset (List.mem_append_left _ hr)

theorem unpicked_subset (h : Covering t n unpicked picked remaining) : unpicked ⊆ t.ranked :=
  fun _ hr ↦ h.perm.subset (List.mem_append_right _ hr)

/-- No feature is taken twice. -/
theorem nodup_picked (ht : t.WellRanked) (h : Covering t n unpicked picked remaining) :
    picked.Nodup :=
  (h.perm.nodup_iff.2 ht.nodup).of_append_left

/-- **Taking a feature.** -/
theorem pick (ht : t.WellRanked) (h : Covering t n unpicked picked remaining)
    (hr : r ∈ unpicked) :
    Covering t n (unpicked.erase r) (r :: picked) (Slots.intersect remaining r.postings) where
  perm := by
    refine List.Perm.trans ?_ h.perm
    rw [List.cons_append]
    exact List.perm_middle.symm.trans ((List.perm_cons_erase hr).symm.append_left picked)
  ascending := Slots.ascending_intersect h.ascending
  mem_iff s := by
    rw [Slots.mem_intersect h.ascending (ht.ascending r (h.unpicked_subset hr)), h.mem_iff,
      List.forall_mem_cons, and_assoc, and_comm (b := s ∈ r.postings)]

/-- The target is never lost. -/
theorem slot_mem (ht : t.WellRanked) (hn : t.slot < n)
    (h : Covering t n unpicked picked remaining) : t.slot ∈ remaining :=
  (h.mem_iff _).2 ⟨hn, fun r hr ↦ ht.slot_mem r (h.picked_subset hr)⟩

/-- A single candidate is the target. -/
theorem eq_singleton_of_length_le (ht : t.WellRanked) (hn : t.slot < n)
    (h : Covering t n unpicked picked remaining) (hlen : remaining.length ≤ 1) :
    remaining = [t.slot] := by
  have hmem := h.slot_mem ht hn
  have hone : remaining.length = 1 := Nat.le_antisymm hlen (List.length_pos_of_mem hmem)
  obtain ⟨s, rfl⟩ := List.length_eq_one_iff.1 hone
  rw [List.mem_singleton.1 hmem]

/-- **If no feature narrows the candidates down, the target is left alone**, since any other
candidate would have all its features. -/
theorem eq_singleton_of_stuck (ht : t.WellRanked) (hall : t.Isolates t.ranked) (hn : t.slot < n)
    (h : Covering t n unpicked picked remaining)
    (hstuck : ∀ r ∈ unpicked, (Slots.intersect remaining r.postings).length = remaining.length) :
    remaining = [t.slot] := by
  rw [Slots.eq_singleton_iff h.ascending]
  refine fun s ↦ ⟨fun hs ↦ (hall.2 s).1 fun r hr ↦ ?_, ?_⟩
  · rcases List.mem_append.1 (h.perm.mem_iff.2 hr) with hpicked | hunpicked
    · exact ((h.mem_iff s).1 hs).2 r hpicked
    · have hsub := Slots.length_intersect_eq_iff h.ascending (ht.ascending r hr)
      exact hsub.1 (hstuck r hunpicked) s hs
  · rintro rfl
    exact h.slot_mem ht hn

/-- **The cover ends with the target alone**, having taken something. -/
theorem cover (ht : t.WellRanked) (hall : t.Isolates t.ranked) (hn : t.slot < n)
    (h : Covering t n unpicked picked remaining) :
    ∃ rest, Covering t n rest (Greedy.cover unpicked picked remaining).1 [t.slot] ∧
      (Greedy.cover unpicked picked remaining).2 = [t.slot] ∧
      (Greedy.cover unpicked picked remaining).1 ≠ [] := by
  fun_induction Greedy.cover unpicked picked remaining with
  | case1 unpicked picked remaining hstop =>
    rw [Bool.and_eq_true, decide_eq_true_eq, Bool.not_eq_true', List.isEmpty_eq_false_iff] at hstop
    -- a single candidate is left
    have heq := h.eq_singleton_of_length_le ht hn hstop.1
    exact ⟨unpicked, heq ▸ h, heq, hstop.2⟩
  | case2 unpicked picked remaining _ hnone =>
    obtain rfl := best?_eq_none_iff.1 hnone
    have heq := h.eq_singleton_of_stuck ht hall hn fun r hr ↦ absurd hr List.not_mem_nil
    refine ⟨[], heq ▸ h, heq, ?_⟩
    -- nothing is left to take, and the target has features
    rintro rfl
    exact hall.1 h.perm.nil_eq.symm
  | case3 unpicked picked remaining _ r narrowed hbest hstop =>
    rw [Bool.and_eq_true, decide_eq_true_eq, Bool.not_eq_true', List.isEmpty_eq_false_iff] at hstop
    have hleast := (best?_spec hbest).2
    -- not even the best feature narrows the candidates down, so none does
    have heq := h.eq_singleton_of_stuck ht hall hn fun r' hr' ↦
      Nat.le_antisymm (Slots.intersect_sublist_left _ _).length_le (hstop.1 ▸ hleast r' hr')
    exact ⟨unpicked, heq ▸ h, heq, hstop.2⟩
  | case4 unpicked picked remaining _ r narrowed hbest _ ih =>
    obtain rfl := (best?_spec hbest).1
    exact ih (h.pick ht (mem_of_best? hbest))

/-- Features that leave the target alone isolate it. -/
theorem isolates_picked (ht : t.WellRanked) (hbound : ∀ r ∈ t.ranked, ∀ s ∈ r.postings, s < n)
    (h : Covering t n unpicked picked [t.slot]) (hne : picked ≠ []) : t.Isolates picked := by
  rw [ht.isolates_iff h.picked_subset]
  refine ⟨hne, fun s hs ↦ ?_⟩
  obtain ⟨r, hr⟩ := List.exists_mem_of_ne_nil picked hne
  exact List.mem_singleton.1 ((h.mem_iff s).2 ⟨hbound r (h.picked_subset hr) s (hs r hr), hs⟩)

end Covering

/-! ### Thinning out -/

variable {x : Index} {target : MethodId}

/-- Without the features of a rank that one of them has, a list of different features is empty only
if there was no other. -/
theorem length_le_one_of_filter_eq_nil (ht : t.WellRanked) (hsub : kept ⊆ t.ranked)
    (hnodup : kept.Nodup) (h : kept.filter (·.rank ≠ r.rank) = []) : kept.length ≤ 1 := by
  have hrank (s : Ranked) (hs : s ∈ kept) : s.rank = r.rank := by
    simpa using List.filter_eq_nil_iff.1 h s hs
  rcases kept with - | ⟨a, - | ⟨b, rest⟩⟩
  · exact Nat.zero_le 1
  · exact Nat.le_refl 1
  · have ha : a ∈ a :: b :: rest := List.mem_cons_self
    have hb : b ∈ a :: b :: rest := List.mem_cons_of_mem _ List.mem_cons_self
    have heq := ht.eq_of_rank_eq (hsub ha) (hsub hb) ((hrank a ha).trans (hrank b hb).symm)
    exact absurd (heq ▸ List.mem_cons_self) (List.nodup_cons.1 hnodup).1

/-- **A feature is dropped exactly if the others isolate the target.** -/
theorem spare_cases (h : x.Coherent) (ht : t.WellRanked) (hok : Target.ofIndex x target = .ok t)
    (hsub : kept ⊆ t.ranked) (hnodup : kept.Nodup) (hkept : t.Isolates kept) (r : Ranked) :
    (t.Isolates (kept.filter (·.rank ≠ r.rank)) ∧
        spare x t.slot kept r = kept.filter (·.rank ≠ r.rank)) ∨
      (¬t.Isolates (kept.filter (·.rank ≠ r.rank)) ∧ spare x t.slot kept r = kept) := by
  have htrial : kept.filter (·.rank ≠ r.rank) ⊆ t.ranked :=
    fun s hs ↦ hsub (List.mem_filter.1 hs).1
  rw [spare]
  split
  · rename_i hone
    -- of a single feature all or nothing is left
    obtain ⟨a, rfl⟩ := List.length_eq_one_iff.1 hone
    by_cases ha : a.rank = r.rank
    · refine Or.inr ⟨fun hi ↦ hi.1 ?_, rfl⟩
      simp [ha]
    · have heq : [a].filter (·.rank ≠ r.rank) = [a] := by simp [ha]
      rw [heq]
      exact Or.inl ⟨hkept, rfl⟩
  · rename_i hone
    have hne : kept.filter (·.rank ≠ r.rank) ≠ [] := fun hnil ↦
      hone (Nat.le_antisymm (length_le_one_of_filter_eq_nil ht hsub hnodup hnil)
        (List.length_pos_iff.2 hkept.1))
    have hiff := Target.candidatesOf_eq_iff h hok htrial hne
    dsimp only
    split
    · rename_i hrem
      exact Or.inl ⟨hiff.1 hrem, rfl⟩
    · rename_i hrem
      exact Or.inr ⟨fun hi ↦ hrem (hiff.2 hi), rfl⟩

/-- What holds while the kept features are gone over: they isolate the target, and each of them is
still to come or is needed. -/
structure Thinned (t : Target) (pending kept : List Ranked) : Prop where
  subset : kept ⊆ t.ranked
  nodup : kept.Nodup
  isolates : t.Isolates kept
  needed : ∀ r ∈ kept, r ∈ pending ∨ ¬t.Isolates (kept.filter (·.rank ≠ r.rank))

namespace Thinned

/-- Before anything has been gone over, everything is still to come. -/
theorem start (hsub : kept ⊆ t.ranked) (hnodup : kept.Nodup) (hkept : t.Isolates kept)
    (hpending : kept ⊆ pending) : Thinned t pending kept :=
  ⟨hsub, hnodup, hkept, fun _ hr ↦ Or.inl (hpending hr)⟩

/-- **Going over a feature.** -/
theorem spare (h : x.Coherent) (ht : t.WellRanked) (hok : Target.ofIndex x target = .ok t)
    (hkept : Thinned t (r :: pending) kept) : Thinned t pending (spare x t.slot kept r) := by
  rcases spare_cases h ht hok hkept.subset hkept.nodup hkept.isolates r with
    ⟨hi, heq⟩ | ⟨hi, heq⟩
  · rw [heq]
    refine ⟨fun s hs ↦ hkept.subset (List.mem_filter.1 hs).1, hkept.nodup.filter _, hi, ?_⟩
    intro s hs
    obtain ⟨hs, hrank⟩ := List.mem_filter.1 hs
    rcases hkept.needed s hs with hmem | hneeded
    · refine Or.inl ((List.mem_cons.1 hmem).resolve_left ?_)
      rintro rfl
      simp at hrank
    · -- with still fewer features around, it is needed all the more
      refine Or.inr fun hi' ↦ hneeded (ht.isolates_mono hi' ?_ ?_)
      · exact (List.filter_sublist.filter _).subset
      · exact fun s' hs' ↦ hkept.subset (List.mem_filter.1 hs').1
  · rw [heq]
    refine ⟨hkept.subset, hkept.nodup, hkept.isolates, fun s hs ↦ ?_⟩
    rcases hkept.needed s hs with hmem | hneeded
    · rcases List.mem_cons.1 hmem with rfl | hmem
      · exact Or.inr hi
      · exact Or.inl hmem
    · exact Or.inr hneeded

/-- **Going over all features**, by induction on those still to come. -/
theorem foldl (h : x.Coherent) (ht : t.WellRanked) (hok : Target.ofIndex x target = .ok t)
    (hkept : Thinned t pending kept) :
    Thinned t [] (pending.foldl (Greedy.spare x t.slot) kept) := by
  induction pending generalizing kept with
  | nil => exact hkept
  | cons r pending ih => exact ih (hkept.spare h ht hok)

/-- **What is left in the end is minimal.** -/
theorem isMinimal (ht : t.WellRanked) (hkept : Thinned t [] kept) : t.IsMinimal kept := by
  -- a part without one of the features lies in what is left when that feature is dropped
  refine ⟨hkept.isolates, fun c hc hi r hr ↦ ?_⟩
  have hneeded := (hkept.needed r hr).resolve_left List.not_mem_nil
  by_contra hnot
  refine hneeded (ht.isolates_mono hi (fun s hs ↦ List.mem_filter.2 ⟨hc hs, ?_⟩) ?_)
  · rw [decide_eq_true_eq]
    intro hrank
    rw [ht.eq_of_rank_eq (hkept.subset (hc hs)) (hkept.subset hr) hrank] at hs
    exact hnot hs
  · exact fun s hs ↦ hkept.subset (List.mem_filter.1 hs).1

end Thinned

end Greedy

/-! ### The greedy search -/

namespace Index

variable {x : Index} {v : FeatureView} {t : Target} {target : MethodId}

/-- **What the greedy search answers**: what is kept of a cover that leaves the target alone. -/
theorem greedyFingerprint_eq_ok_iff {s : FeatureSet} :
    x.greedyFingerprint target = .ok s ↔ ∃ t, Target.ofIndex x target = .ok t ∧
      (Greedy.cover t.ranked [] (List.range x.size)).2 = [t.slot] ∧
      s = .ofList (((Greedy.cover t.ranked [] (List.range x.size)).1.foldl (Greedy.spare x t.slot)
        (Greedy.cover t.ranked [] (List.range x.size)).1.reverse).map Ranked.feature) := by
  unfold greedyFingerprint
  cases Target.ofIndex x target with
  | error e => simp
  | ok t =>
    dsimp only
    split
    · rename_i halone
      simp [halone, eq_comm]
    · rename_i halone
      simp [halone]

/-- **The greedy search finds a minimal fingerprint** of every target that passes the checks, and
its cover leaves the target alone. -/
theorem Presents.greedyFingerprint_spec (h : x.Presents v)
    (hok : Target.ofIndex x target = .ok t) :
    (Greedy.cover t.ranked [] (List.range x.size)).2 = [t.slot] ∧
      ∃ s, x.greedyFingerprint target = .ok s ∧ v.IsMinimal target s := by
  have ht := Target.standsFor_of_ofIndex h hok
  have hwell := ht.toWellRanked
  have hbound (r : Ranked) (hr : r ∈ t.ranked) (s : Slot) (hs : s ∈ r.postings) : s < x.size :=
    Target.lt_size_of_mem_postings h.toCoherent hok hr hs
  obtain ⟨rest, hcover, halone, hne⟩ :=
    (Greedy.Covering.start t x.size).cover hwell ht.isolates_ranked (Target.slot_lt_size h hok)
  refine ⟨halone, ?_⟩
  obtain ⟨picked, hpicked⟩ : ∃ picked, picked = (Greedy.cover t.ranked [] (List.range x.size)).1 :=
    ⟨_, rfl⟩
  rw [← hpicked] at hcover hne
  have hi := hcover.isolates_picked hwell hbound hne
  -- the features are gone over from the last to the first, and all of them are kept at first
  have hsub : picked.reverse ⊆ picked := fun r hr ↦ List.mem_reverse.1 hr
  have hsub' : picked ⊆ picked.reverse := fun r hr ↦ List.mem_reverse.2 hr
  have hstart : Greedy.Thinned t picked picked.reverse :=
    .start (fun r hr ↦ hcover.picked_subset (hsub hr))
      (List.nodup_reverse.2 (hcover.nodup_picked hwell))
      (hwell.isolates_mono hi hsub' fun r hr ↦ hcover.picked_subset (hsub hr)) hsub
  have hend := hstart.foldl h.toCoherent hwell hok
  refine ⟨_, ?_, (ht.isMinimal_iff hend.subset).2 (hend.isMinimal hwell)⟩
  simp only [greedyFingerprint, hok, halone, ← hpicked, if_true]

/-- What the greedy search finds is minimal. -/
theorem Presents.isMinimal_of_greedyFingerprint (h : x.Presents v) {s : FeatureSet}
    (hs : x.greedyFingerprint target = .ok s) : v.IsMinimal target s := by
  cases hok : Target.ofIndex x target with
  | error e =>
    rw [greedyFingerprint, hok] at hs
    cases hs
  | ok t =>
    obtain ⟨-, s', hs', hmin⟩ := h.greedyFingerprint_spec hok
    rwa [← Except.ok.inj (hs'.symm.trans hs)]

/-- **The greedy search agrees with the exhaustive one.** It has an answer for the same targets, and
the answer is one of the minimal fingerprints; both fail with the same error. Once the checks are
passed, its cover leaves the target alone. -/
theorem greedyFingerprint_build (methods : List Method) (settings : Settings) (target : MethodId) :
    ((∃ s, (build methods settings).greedyFingerprint target = .ok s) ↔
        ∃ o, (build methods settings).minimalFingerprints target = .ok o) ∧
      (∀ s o, (build methods settings).greedyFingerprint target = .ok s →
        (build methods settings).minimalFingerprints target = .ok o →
        s ≠ ∅ ∧ s ∈ o.fingerprints ∧ (settings.featuresOf methods).IsMinimal target s) ∧
      (∀ e, (build methods settings).greedyFingerprint target = .error e ↔
        (build methods settings).minimalFingerprints target = .error e) ∧
      ∀ t, Target.ofIndex (build methods settings) target = .ok t →
        (Greedy.cover t.ranked [] (List.range (build methods settings).size)).2 = [t.slot] := by
  have h := presents_build methods settings
  cases hok : Target.ofIndex (build methods settings) target with
  | error e =>
    have hgreedy : (build methods settings).greedyFingerprint target = .error e := by
      rw [greedyFingerprint, hok]
    have hminimal : (build methods settings).minimalFingerprints target = .error e := by
      rw [minimalFingerprints, search, hok]
    rw [hgreedy, hminimal]
    simp
  | ok t =>
    obtain ⟨halone, s, hs, hmin⟩ := h.greedyFingerprint_spec hok
    obtain ⟨o, ho, hcomplete, hanswers⟩ := h.minimalFingerprints_spec hok
    rw [hs, ho]
    refine ⟨by simp, ?_, by simp, ?_⟩
    · rintro _ _ ⟨⟩ ⟨⟩
      exact ⟨hmin.1.1, hanswers.mem_of_complete hcomplete s hmin, hmin⟩
    · rintro _ ⟨⟩
      exact halone

end Index

end MethodFingerprint
