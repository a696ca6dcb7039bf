import MethodFingerprint.Proofs.Isolation
import MethodFingerprint.Search.Target

/-!
# Combinations of ranked features

Both searches work on **combinations**, lists of ranked features, and look at nothing but ranks and
posting lists. A combination isolates the target if the slot of the target is the only one that all
its posting lists share. `Target.StandsFor` is the bridge between the two sides: on combinations of
the features of a target, isolation is isolation of the set of their features, so that whatever is
proved of combinations holds of sets.

Minimality is stated by membership and not by the order of the members (`Target.IsMinimal`), since
one search lists the members by rank and the other by the order in which it took them.

`Target.ofIndex_eq_ok_iff` says when the checks made up front are passed:
`Target.standsFor_of_ofIndex` and `Target.exists_ofIndex_eq_ok` give this its meaning, that the
features of the target isolate it.
-/

namespace MethodFingerprint

namespace Target

/-! ### Isolation on combinations -/

/-- A combination isolates the target if its members share one slot, that of the target. -/
def Isolates (t : Target) (c : List Ranked) : Prop :=
  c ≠ [] ∧ ∀ s, (∀ r ∈ c, s ∈ r.postings) ↔ s = t.slot

/-- An isolating combination no part of which isolates the target without having all members. -/
def IsMinimal (t : Target) (c : List Ranked) : Prop :=
  t.Isolates c ∧ ∀ c', c' ⊆ c → t.Isolates c' → c ⊆ c'

/-- The members of a set among the ranked features, by rank. -/
def combination (t : Target) (s : FeatureSet) : List Ranked :=
  t.ranked.filter fun r ↦ s.contains r.feature

theorem combination_sublist (t : Target) (s : FeatureSet) :
    (t.combination s).Sublist t.ranked :=
  List.filter_sublist

/-- What ranking gives: features stand by rank, posting lists are ascending, and the target has its
features. -/
structure WellRanked (t : Target) : Prop where
  ascending_ranks : (t.ranked.map Ranked.rank).Pairwise (· < ·)
  ascending : ∀ r ∈ t.ranked, r.postings.Pairwise (· < ·)
  slot_mem : ∀ r ∈ t.ranked, t.slot ∈ r.postings

variable {t : Target} {c c' : List Ranked}

namespace WellRanked

theorem nodup_ranks (h : t.WellRanked) : (t.ranked.map Ranked.rank).Nodup :=
  h.ascending_ranks.nodup

theorem nodup (h : t.WellRanked) : t.ranked.Nodup :=
  h.nodup_ranks.of_map _

/-- Features of one rank are the same. -/
theorem eq_of_rank_eq (h : t.WellRanked) {r r' : Ranked} (hr : r ∈ t.ranked) (hr' : r' ∈ t.ranked)
    (hrank : r.rank = r'.rank) : r = r' :=
  List.inj_on_of_nodup_map h.nodup_ranks hr hr' hrank

/-- Combinations are told apart by the ranks of their members. -/
theorem eq_of_map_rank_eq (h : t.WellRanked) (hc : c ⊆ t.ranked) (hc' : c' ⊆ t.ranked)
    (hranks : c.map Ranked.rank = c'.map Ranked.rank) : c = c' := by
  induction c generalizing c' with
  | nil => exact (List.map_eq_nil_iff.1 hranks.symm).symm
  | cons r c ih =>
    cases c' with
    | nil => cases hranks
    | cons r' c' =>
      obtain ⟨hr, hrest⟩ := List.cons.inj hranks
      obtain ⟨hr₁, hc⟩ := List.cons_subset.1 hc
      obtain ⟨hr₂, hc'⟩ := List.cons_subset.1 hc'
      rw [h.eq_of_rank_eq hr₁ hr₂ hr, ih hc hc' hrest]

/-- Combinations by rank with the same members are the same. -/
theorem eq_of_subset_of_subset (h : t.WellRanked) (hc : c.Sublist t.ranked)
    (hc' : c'.Sublist t.ranked) (hsub : c ⊆ c') (hsub' : c' ⊆ c) : c = c' := by
  refine h.eq_of_map_rank_eq hc.subset hc'.subset ?_
  refine List.Subset.antisymm_of_pairwise (h.ascending_ranks.sublist (hc.map _))
    (h.ascending_ranks.sublist (hc'.map _)) (List.map_subset _ hsub) (List.map_subset _ hsub')

/-- All that has to be checked is that no other slot is shared. -/
theorem isolates_iff (h : t.WellRanked) (hc : c ⊆ t.ranked) :
    t.Isolates c ↔ c ≠ [] ∧ ∀ s, (∀ r ∈ c, s ∈ r.postings) → s = t.slot := by
  refine and_congr_right fun _ ↦ forall_congr' fun s ↦ ⟨Iff.mp, fun hs ↦ ⟨hs, ?_⟩⟩
  rintro rfl r hr
  exact h.slot_mem r (hc hr)

/-- **Isolation goes upwards.** -/
theorem isolates_mono (h : t.WellRanked) (hc : t.Isolates c) (hsub : c ⊆ c')
    (hc' : c' ⊆ t.ranked) : t.Isolates c' := by
  rw [h.isolates_iff hc']
  refine ⟨?_, fun s hs ↦ (hc.2 s).1 fun r hr ↦ hs r (hsub hr)⟩
  rintro rfl
  exact hc.1 (List.subset_nil.1 hsub)

end WellRanked

/-! ### The target of a search -/

/-- A target that stands for an id in a view: its features are those of the id, and combinations
isolate it exactly if the sets of their features do. -/
structure StandsFor (t : Target) (v : FeatureView) (target : MethodId) : Prop
    extends t.WellRanked where
  nodup_features : (t.ranked.map Ranked.feature).Nodup
  features_eq : v target = some (.ofList (t.ranked.map Ranked.feature))
  isolates_iff_isolates : ∀ c, c ⊆ t.ranked →
    (v.Isolates target (.ofList (c.map Ranked.feature)) ↔ t.Isolates c)
  isolates_ranked : t.Isolates t.ranked

namespace StandsFor

variable {v : FeatureView} {target : MethodId}

/-- The members of a combination are told apart by their features. -/
theorem mem_of_feature_mem (h : t.StandsFor v target) (hc : c ⊆ t.ranked) {r : Ranked}
    (hr : r ∈ t.ranked) (hf : r.feature ∈ FeatureSet.ofList (c.map Ranked.feature)) : r ∈ c := by
  obtain ⟨r', hr', heq⟩ := List.mem_map.1 (FeatureSet.mem_ofList.1 hf)
  rwa [← List.inj_on_of_nodup_map h.nodup_features (hc hr') hr heq]

/-- **Inclusion of combinations is inclusion of their sets.** -/
theorem subset_iff (h : t.StandsFor v target) (hc : c ⊆ t.ranked) (hc' : c' ⊆ t.ranked) :
    FeatureSet.ofList (c.map Ranked.feature) ⊆ .ofList (c'.map Ranked.feature) ↔ c ⊆ c' := by
  constructor
  · intro hsub r hr
    refine h.mem_of_feature_mem hc' (hc hr) (hsub _ ?_)
    exact FeatureSet.mem_ofList.2 (List.mem_map_of_mem hr)
  · intro hsub f hf
    exact FeatureSet.mem_ofList.2 (List.map_subset _ hsub (FeatureSet.mem_ofList.1 hf))

/-- A combination without repetitions is as long as its set is large. -/
theorem size_ofList (h : t.StandsFor v target) (hc : c.Sublist t.ranked) :
    (FeatureSet.ofList (c.map Ranked.feature)).size = c.length := by
  rw [FeatureSet.size_ofList_of_nodup (h.nodup_features.sublist (hc.map _)), List.length_map]

/-- Every part of the features of the target is the set of its combination. -/
theorem ofList_combination {s : FeatureSet} (hs : s ⊆ .ofList (t.ranked.map Ranked.feature)) :
    FeatureSet.ofList ((t.combination s).map Ranked.feature) = s := by
  refine FeatureSet.ext fun f ↦ ?_
  rw [FeatureSet.mem_ofList, List.mem_map]
  constructor
  · rintro ⟨r, hr, rfl⟩
    exact FeatureSet.contains_iff.1 (List.mem_filter.1 hr).2
  · intro hf
    obtain ⟨r, hr, rfl⟩ := List.mem_map.1 (FeatureSet.mem_ofList.1 (hs f hf))
    exact ⟨r, List.mem_filter.2 ⟨hr, FeatureSet.contains_iff.2 hf⟩, rfl⟩

/-- An isolating set is a part of the features of the target. -/
theorem subset_of_isolates (h : t.StandsFor v target) {s : FeatureSet} (hs : v.Isolates target s) :
    s ⊆ .ofList (t.ranked.map Ranked.feature) := by
  obtain ⟨u, hu, hsub⟩ := hs.carries
  rw [h.features_eq] at hu
  rwa [Option.some.inj hu]

/-- **Minimal combinations are those of minimal fingerprints.** -/
theorem isMinimal_iff (h : t.StandsFor v target) (hc : c ⊆ t.ranked) :
    v.IsMinimal target (.ofList (c.map Ranked.feature)) ↔ t.IsMinimal c := by
  constructor
  · rintro ⟨hi, hmin⟩
    refine ⟨(h.isolates_iff_isolates c hc).1 hi, fun c' hsub hi' ↦ ?_⟩
    have hc' : c' ⊆ t.ranked := fun r hr ↦ hc (hsub hr)
    have heq := hmin _ ((h.subset_iff hc' hc).2 hsub) ((h.isolates_iff_isolates c' hc').2 hi')
    rw [← h.subset_iff hc hc', heq]
    exact FeatureSet.subset_refl _
  · rintro ⟨hi, hmin⟩
    refine ⟨(h.isolates_iff_isolates c hc).2 hi, fun s hsub hs ↦ ?_⟩
    have hset := ofList_combination (h.subset_of_isolates hs)
    have hc' : t.combination s ⊆ t.ranked := (t.combination_sublist s).subset
    rw [← hset] at hsub hs ⊢
    have hle := hmin _ ((h.subset_iff hc' hc).1 hsub) ((h.isolates_iff_isolates _ hc').1 hs)
    exact FeatureSet.subset_antisymm hsub ((h.subset_iff hc hc').2 hle)

end StandsFor

/-! ### Passing the checks -/

theorem mem_rank {x : Index} {features : FeatureSet} {r : Ranked} (hr : r ∈ rank x features) :
    r.feature ∈ features ∧ r.postings = x.candidates r.feature := by
  obtain ⟨⟨p, i⟩, hp, rfl⟩ := List.mem_map.1 hr
  have hmem := List.mem_mergeSort.1 (List.fst_mem_of_mem_zipIdx hp)
  obtain ⟨f, hf, rfl⟩ := List.mem_map.1 hmem
  exact ⟨hf, rfl⟩

/-- Ranks count from 0. -/
theorem map_rank_rank (x : Index) (features : FeatureSet) :
    (rank x features).map Ranked.rank = List.range features.size := by
  rw [rank, List.map_map]
  show List.map Prod.snd _ = _
  rw [List.zipIdx_map_snd, List.length_mergeSort, List.length_map, List.range_eq_range']
  rfl

/-- Every feature is ranked, once. -/
theorem map_feature_rank_perm (x : Index) (features : FeatureSet) :
    ((rank x features).map Ranked.feature).Perm features.toList := by
  rw [rank, List.map_map]
  show (List.map (Prod.fst ∘ Prod.fst) _).Perm _
  rw [← List.map_map, List.zipIdx_map_fst]
  refine ((List.mergeSort_perm _ _).map Prod.fst).trans ?_
  rw [List.map_map]
  exact .of_eq (List.map_id' _)

/-- **When a target passes the checks**, and what it is then. -/
theorem ofIndex_eq_ok_iff {x : Index} {target : MethodId} :
    ofIndex x target = .ok t ↔ ∃ slot, x.slots[target]? = some slot ∧
      (x.featuresAt slot).toList ≠ [] ∧ x.candidatesOf (x.featuresAt slot).toList = [slot] ∧
      t = ⟨slot, rank x (x.featuresAt slot)⟩ := by
  unfold ofIndex Index.slot
  cases x.slots[target]? with
  | none => simp
  | some slot =>
    simp only [FeatureSet.isEmpty, List.isEmpty_iff, Option.some.injEq, exists_eq_left']
    split
    · rename_i hempty
      simp [hempty]
    · rename_i hne
      split
      · rename_i hrem
        simp [hne, hrem, eq_comm]
      · rename_i hrem
        simp [hrem]

variable {x : Index} {v : FeatureView} {target : MethodId}

/-- The candidates of a combination are the slots that its posting lists share. -/
theorem mem_candidatesOf_map_feature (h : x.Coherent) {features : FeatureSet}
    (hc : c ⊆ rank x features) (hne : c ≠ []) {s : Slot} :
    s ∈ x.candidatesOf (c.map Ranked.feature) ↔ ∀ r ∈ c, s ∈ r.postings := by
  rw [h.mem_candidatesOf, List.forall_mem_map]
  have hmem (r : Ranked) (hr : r ∈ c) : s ∈ r.postings ↔ r.feature ∈ x.featuresAt s := by
    rw [(mem_rank (hc hr)).2, h.mem_candidates]
  constructor
  · rintro ⟨-, hs⟩ r hr
    exact (hmem r hr).2 (hs r hr)
  · intro hs
    obtain ⟨r, hr⟩ := List.exists_mem_of_ne_nil c hne
    exact ⟨Index.lt_size_of_mem_featuresAt ((hmem r hr).1 (hs r hr)),
      fun r hr ↦ (hmem r hr).1 (hs r hr)⟩

/-- Isolation of a combination is the test that the index makes. -/
theorem isolates_iff_candidatesOf (h : x.Coherent) {slot : Slot} {features : FeatureSet}
    {ranked : List Ranked} (hc : c ⊆ rank x features) :
    Isolates ⟨slot, ranked⟩ c ↔ c ≠ [] ∧ x.candidatesOf (c.map Ranked.feature) = [slot] := by
  refine and_congr_right fun hne ↦ ?_
  rw [Slots.eq_singleton_iff (h.ascending_candidatesOf _)]
  exact forall_congr' fun s ↦ iff_congr (mem_candidatesOf_map_feature h hc hne).symm Iff.rfl

/-- **A target that passes the checks stands for its id.** -/
theorem standsFor_of_ofIndex (h : x.Presents v) (hok : ofIndex x target = .ok t) :
    t.StandsFor v target := by
  obtain ⟨slot, hslot, hne, hrem, rfl⟩ := ofIndex_eq_ok_iff.1 hok
  have hperm := map_feature_rank_perm x (x.featuresAt slot)
  have hset : FeatureSet.ofList ((rank x (x.featuresAt slot)).map Ranked.feature) =
      x.featuresAt slot :=
    FeatureSet.ext fun f ↦ by rw [FeatureSet.mem_ofList, hperm.mem_iff, FeatureSet.mem_def]
  exact {
    ascending_ranks := by
      show ((rank x _).map Ranked.rank).Pairwise (· < ·)
      rw [map_rank_rank]
      exact List.pairwise_lt_range
    ascending := fun r hr ↦ by
      rw [(mem_rank hr).2]
      exact h.ascending_candidates _
    slot_mem := fun r hr ↦ by
      rw [(mem_rank hr).2, h.mem_candidates]
      exact (mem_rank hr).1
    nodup_features := hperm.nodup_iff.2 (FeatureSet.nodup _)
    features_eq := by
      show v target = some (.ofList ((rank x _).map Ranked.feature))
      rw [hset]
      exact h.eq_some_iff.2 ⟨slot, hslot, rfl⟩
    isolates_iff_isolates := fun c hc ↦ by
      rw [h.isolates_iff hslot, isolates_iff_candidatesOf h.toCoherent hc]
      exact and_congr_left' (not_congr List.map_eq_nil_iff)
    isolates_ranked := by
      rw [isolates_iff_candidatesOf h.toCoherent (List.Subset.refl _)]
      refine ⟨fun hnil ↦ hne ?_, ?_⟩
      · have hlen := hperm.length_eq
        rw [hnil] at hlen
        exact List.length_eq_zero_iff.1 hlen.symm
      · rw [← hrem]
        exact h.candidatesOf_congr fun f ↦ hperm.mem_iff }

/-- Past the checks, the index tests the isolation of combinations. -/
theorem candidatesOf_eq_iff (h : x.Coherent) (hok : ofIndex x target = .ok t)
    (hc : c ⊆ t.ranked) (hne : c ≠ []) :
    x.candidatesOf (c.map Ranked.feature) = [t.slot] ↔ t.Isolates c := by
  obtain ⟨slot, -, -, -, rfl⟩ := ofIndex_eq_ok_iff.1 hok
  rw [isolates_iff_candidatesOf h hc]
  exact (and_iff_right hne).symm

/-- Posting lists have no slots but those of the index. -/
theorem lt_size_of_mem_postings (h : x.Coherent) (hok : ofIndex x target = .ok t) {r : Ranked}
    (hr : r ∈ t.ranked) {s : Slot} (hs : s ∈ r.postings) : s < x.size := by
  obtain ⟨slot, -, -, -, rfl⟩ := ofIndex_eq_ok_iff.1 hok
  rw [(mem_rank hr).2, h.mem_candidates] at hs
  exact Index.lt_size_of_mem_featuresAt hs

/-- The slot of a target is one of the index, since the target has features. -/
theorem slot_lt_size (h : x.Presents v) (hok : ofIndex x target = .ok t) : t.slot < x.size := by
  have ht := standsFor_of_ofIndex h hok
  obtain ⟨r, hr⟩ := List.exists_mem_of_ne_nil t.ranked ht.isolates_ranked.1
  exact lt_size_of_mem_postings h.toCoherent hok hr (ht.slot_mem r hr)

/-- **A target whose features isolate it passes the checks.** -/
theorem exists_ofIndex_eq_ok (h : x.Presents v) {features : FeatureSet}
    (hv : v target = some features) (hi : v.Isolates target features) :
    ∃ t, ofIndex x target = .ok t := by
  obtain ⟨slot, hslot, rfl⟩ := h.eq_some_iff.1 hv
  rw [← FeatureSet.ofList_toList (x.featuresAt slot)] at hi
  obtain ⟨hne, hrem⟩ := (h.isolates_iff hslot).1 hi
  exact ⟨_, ofIndex_eq_ok_iff.2 ⟨slot, hslot, hne, hrem, rfl⟩⟩

end Target

end MethodFingerprint
