import MethodFingerprint.Proofs.Search.Greedy

/-!
# The rarest feature

Two orders meet where a single feature singles a target out. The exhaustive search lists
fingerprints by size and then by tokens; the greedy search takes the feature that leaves the fewest
candidates, and of several the one ranked first, where rarer features stand before others and
equally rare ones by token. A feature that isolates the target is as rare as a feature of the
target can be, so if there is one then the feature ranked first isolates the target
(`Target.isolates_head`), and no isolating feature has a smaller token. The greedy search
takes it at once and stops (`Index.Presents.greedyFingerprint_eq_head`).
-/

namespace MethodFingerprint

/-- A feature that is not behind another is not behind what comes after that one. -/
theorem Feature.not_lt_trans {f g h : Feature} (hfg : ¬g < f) (hgh : ¬h < g) : ¬h < f := by
  intro hlt
  by_cases hne : g = f
  · exact hgh (hne ▸ hlt)
  · exact hgh (lt_trans hlt (lt_of_not_lt_of_ne hfg hne))

/-! ### The ranking -/

namespace Target

variable {t : Target} {x : Index} {v : FeatureView} {target : MethodId} {r r' : Ranked}
  {rest : List Ranked}

theorem rarerFirst_iff {p q : Feature × List Slot} : rarerFirst p q = true ↔
    p.2.length < q.2.length ∨ p.2.length = q.2.length ∧ ¬q.1 < p.1 := by
  simp [rarerFirst]

theorem rarerFirst_trans (p q s : Feature × List Slot) (h : rarerFirst p q = true)
    (h' : rarerFirst q s = true) : rarerFirst p s = true := by
  rw [rarerFirst_iff] at h h' ⊢
  rcases h with h | ⟨hlen, h⟩ <;> rcases h' with h' | ⟨hlen', h'⟩
  · exact Or.inl (h.trans h')
  · exact Or.inl (hlen' ▸ h)
  · exact Or.inl (hlen ▸ h')
  · exact Or.inr ⟨hlen.trans hlen', Feature.not_lt_trans h h'⟩

theorem rarerFirst_total (p q : Feature × List Slot) :
    (rarerFirst p q || rarerFirst q p) = true := by
  rw [Bool.or_eq_true, rarerFirst_iff, rarerFirst_iff]
  rcases Nat.lt_trichotomy p.2.length q.2.length with h | h | h
  · exact Or.inl (Or.inl h)
  · by_cases hlt : q.1 < p.1
    · exact Or.inr (Or.inr ⟨h.symm, fun hlt' ↦ Feature.lt_irrefl _ (Feature.lt_trans hlt hlt')⟩)
    · exact Or.inl (Or.inr ⟨h, hlt⟩)
  · exact Or.inr (Or.inl h)

/-- **Ranked features are in order**: rarer ones first, equally rare ones by token. -/
theorem pairwise_rank (x : Index) (features : FeatureSet) :
    (rank x features).Pairwise fun r r' ↦
      rarerFirst (r.feature, r.postings) (r'.feature, r'.postings) = true := by
  have hsorted := List.pairwise_mergeSort rarerFirst_trans rarerFirst_total
    (features.toList.map fun f ↦ (f, x.candidates f))
  rw [← List.zipIdx_map_fst 0 (List.mergeSort _ _), List.pairwise_map] at hsorted
  rw [rank, List.pairwise_map]
  exact hsorted

/-- A single feature isolates the target if nobody else carries it. -/
theorem StandsFor.isolates_singleton_iff (h : t.StandsFor v target) (hr : r ∈ t.ranked) :
    v.Isolates target (.ofList [r.feature]) ↔ r.postings = [t.slot] := by
  have hsub : [r] ⊆ t.ranked := List.cons_subset.2 ⟨hr, List.nil_subset _⟩
  rw [Slots.eq_singleton_iff (h.ascending r hr), ← List.map_singleton,
    h.isolates_iff_isolates [r] hsub]
  simp [Isolates]

/-- The feature ranked first is rarer than any other, or as rare and not behind it. -/
theorem head_first (hok : ofIndex x target = .ok t) (hranked : t.ranked = r :: rest)
    (hr' : r' ∈ rest) : r.postings.length < r'.postings.length ∨
      r.postings.length = r'.postings.length ∧ ¬r'.feature < r.feature := by
  obtain ⟨slot, -, -, -, rfl⟩ := ofIndex_eq_ok_iff.1 hok
  have hsorted := pairwise_rank x (x.featuresAt slot)
  rw [show rank x (x.featuresAt slot) = r :: rest from hranked] at hsorted
  exact rarerFirst_iff.1 ((List.pairwise_cons.1 hsorted).1 r' hr')

/-- **The feature ranked first isolates the target if any single one does**, and none that does has
a smaller token. -/
theorem isolates_head (h : x.Presents v) (hok : ofIndex x target = .ok t)
    (hranked : t.ranked = r :: rest) {f : Feature} (hf : v.Isolates target (.ofList [f])) :
    r.postings = [t.slot] ∧ ¬f < r.feature := by
  have ht := standsFor_of_ofIndex h hok
  have hr : r ∈ t.ranked := hranked ▸ List.mem_cons_self
  obtain ⟨r', hr', rfl⟩ : ∃ r' ∈ t.ranked, r'.feature = f := by
    have hsub := ht.subset_of_isolates hf f (FeatureSet.mem_ofList.2 List.mem_cons_self)
    exact List.mem_map.1 (FeatureSet.mem_ofList.1 hsub)
  have halone : r'.postings = [t.slot] := (ht.isolates_singleton_iff hr').1 hf
  rw [hranked] at hr'
  rcases List.mem_cons.1 hr' with rfl | hmem
  · exact ⟨halone, Feature.lt_irrefl _⟩
  · -- the target carries both, so no feature is rarer than the one that nobody else carries
    have hslot := ht.slot_mem r hr
    have hpos := List.length_pos_of_mem hslot
    have hone : r'.postings.length = 1 := by rw [halone, List.length_singleton]
    rcases head_first hok hranked hmem with hlt | ⟨hlen, htoken⟩
    · omega
    · obtain ⟨s, hs⟩ := List.length_eq_one_iff.1 (hlen.trans hone)
      rw [hs, List.mem_singleton] at hslot
      exact ⟨hslot ▸ hs, htoken⟩

end Target

/-! ### The first pick -/

namespace Greedy

variable {remaining : List Slot} {r : Ranked} {rest : List Ranked} {slot : Slot} {n : Nat}

/-- The first of the features is taken unless another one leaves fewer candidates. -/
theorem best?_cons_of_le (h : ∀ r' ∈ rest, (Slots.intersect remaining r.postings).length ≤
    (Slots.intersect remaining r'.postings).length) :
    best? remaining (r :: rest) = some (r, Slots.intersect remaining r.postings) := by
  rw [best?]
  split
  · rfl
  · rename_i r' narrowed hbest
    obtain ⟨rfl, -⟩ := best?_spec hbest
    exact if_neg (Nat.not_lt.2 (h r' (mem_of_best? hbest)))

/-- **A cover is one feature if the first one leaves the target alone.** -/
theorem cover_of_head (hn : slot < n) (hr : r.postings = [slot])
    (hrest : ∀ r' ∈ rest, r'.postings.Pairwise (· < ·) ∧ slot ∈ r'.postings) :
    cover (r :: rest) [] (List.range n) = ([r], [slot]) := by
  have halone : Slots.intersect (List.range n) r.postings = [slot] := by
    rw [Slots.eq_singleton_iff (Slots.ascending_intersect List.pairwise_lt_range), hr]
    intro s
    rw [Slots.mem_intersect List.pairwise_lt_range (List.pairwise_singleton _ _), List.mem_range,
      List.mem_singleton]
    exact and_iff_right_of_imp fun h ↦ h ▸ hn
  have hleast : ∀ r' ∈ rest, (Slots.intersect (List.range n) r.postings).length ≤
      (Slots.intersect (List.range n) r'.postings).length := by
    intro r' hr'
    rw [halone]
    refine List.length_pos_of_mem (a := slot) ?_
    rw [Slots.mem_intersect List.pairwise_lt_range (hrest r' hr').1]
    exact ⟨List.mem_range.2 hn, (hrest r' hr').2⟩
  rw [cover_of_best?_eq_some (by simp) (best?_cons_of_le hleast), if_neg (by simp), halone, cover,
    if_pos (by simp)]

end Greedy

namespace Index

variable {x : Index} {v : FeatureView} {t : Target} {target : MethodId} {r : Ranked}
  {rest : List Ranked}

/-- **The greedy search stops at the feature ranked first** if it isolates the target. -/
theorem Presents.greedyFingerprint_eq_head (h : x.Presents v)
    (hok : Target.ofIndex x target = .ok t) (hranked : t.ranked = r :: rest)
    (hr : r.postings = [t.slot]) : x.greedyFingerprint target = .ok (.ofList [r.feature]) := by
  have ht := Target.standsFor_of_ofIndex h hok
  have hrest : ∀ r' ∈ rest, r'.postings.Pairwise (· < ·) ∧ t.slot ∈ r'.postings := by
    intro r' hr'
    have hmem : r' ∈ t.ranked := hranked ▸ List.mem_cons_of_mem r hr'
    exact ⟨ht.ascending r' hmem, ht.slot_mem r' hmem⟩
  have hcover := Greedy.cover_of_head (Target.slot_lt_size h hok) hr hrest
  refine greedyFingerprint_eq_ok_iff.2 ⟨t, hok, ?_, ?_⟩
  · rw [hranked, hcover]
  · rw [hranked, hcover]
    rfl

/-- **Where a single feature is enough, the greedy search finds one**, and no single feature that is
enough has a smaller token. -/
theorem Presents.exists_greedyFingerprint_eq (h : x.Presents v)
    (hok : Target.ofIndex x target = .ok t) {f : Feature} (hf : v.Isolates target (.ofList [f])) :
    ∃ g, x.greedyFingerprint target = .ok (.ofList [g]) ∧ v.Isolates target (.ofList [g]) ∧
      ∀ g', v.Isolates target (.ofList [g']) → ¬g' < g := by
  have ht := Target.standsFor_of_ofIndex h hok
  obtain ⟨r, rest, hranked⟩ := List.exists_cons_of_ne_nil ht.isolates_ranked.1
  have hr := (Target.isolates_head h hok hranked hf).1
  refine ⟨r.feature, h.greedyFingerprint_eq_head hok hranked hr, ?_, fun g' hg' ↦ ?_⟩
  · exact (ht.isolates_singleton_iff (hranked ▸ List.mem_cons_self)).2 hr
  · exact (Target.isolates_head h hok hranked hg').2

end Index

/-! ### The first fingerprint -/

/-- **A list that starts with a single feature starts with the one that has the smallest token** of
all that isolate the target, as they are minimal and so all of them are listed. -/
theorem Outcome.Answers.not_lt_of_first {o : Outcome} {v : FeatureView} {target : MethodId}
    {f g : Feature} {rest : List FeatureSet} (h : o.Answers v target)
    (hcomplete : o.complete = true) (hlist : o.fingerprints = .ofList [f] :: rest)
    (hg : v.Isolates target (.ofList [g])) : ¬g < f := by
  have hmin := hg.isMinimal_of_size_le_one (FeatureSet.size_ofList_le [g])
  rcases h.first_least hcomplete hlist hmin with heq | hlt
  · have hsame := congrArg FeatureSet.toList heq
    rw [FeatureSet.toList_singleton, FeatureSet.toList_singleton, List.singleton_inj] at hsame
    exact hsame ▸ Feature.lt_irrefl g
  · rw [FeatureSet.listedFirst_singleton_iff] at hlt
    exact fun hlt' ↦ Feature.lt_irrefl g (Feature.lt_trans hlt' hlt)

namespace Index

/-- **The greedy search takes the best single feature.** If the first fingerprint that the
exhaustive search lists is a single feature, then the greedy search finds this one, which has the
smallest token of all that isolate the target; if the first one is larger, the greedy search finds
one that is at least as large. -/
theorem greedyFingerprint_build_of_first (methods : List Method) (settings : Settings)
    (target : MethodId) (o : Outcome)
    (ho : (build methods settings).minimalFingerprints target = .ok o) :
    ∃ first rest, o.fingerprints = first :: rest ∧
      (first.size = 1 → (build methods settings).greedyFingerprint target = .ok first ∧
        ∃ f, first = .ofList [f] ∧ (settings.featuresOf methods).Isolates target first ∧
          ∀ g, (settings.featuresOf methods).Isolates target (.ofList [g]) → ¬g < f) ∧
      (1 < first.size → ∃ s, (build methods settings).greedyFingerprint target = .ok s ∧
        first.size ≤ s.size) := by
  have h := presents_build methods settings
  cases hok : Target.ofIndex (build methods settings) target with
  | error e =>
    rw [minimalFingerprints, search, hok] at ho
    cases ho
  | ok t =>
    obtain ⟨-, s, hs, hmin⟩ := h.greedyFingerprint_spec hok
    obtain ⟨o', ho', hcomplete, hanswers⟩ := h.minimalFingerprints_spec hok
    obtain rfl : o' = o := Except.ok.inj (ho'.symm.trans ho)
    obtain ⟨first, rest, hlist⟩ := hanswers.exists_first hcomplete hmin
    refine ⟨first, rest, hlist, fun hone ↦ ?_, fun _ ↦ ⟨s, hs, ?_⟩⟩
    · obtain ⟨f, hf⟩ := List.length_eq_one_iff.1 hone
      obtain rfl : first = .ofList [f] := by rw [← hf, FeatureSet.ofList_toList]
      have hfirst := (hanswers.isMinimal_first hlist).1
      have hleast (g : Feature) := hanswers.not_lt_of_first (g := g) hcomplete hlist
      obtain ⟨g, hgreedy, hg, hleast'⟩ := h.exists_greedyFingerprint_eq hok hfirst
      obtain rfl : g = f := Std.Trichotomous.trichotomous g f (hleast g hg) (hleast' f hfirst)
      exact ⟨hgreedy, g, rfl, hfirst, hleast⟩
    · exact hanswers.size_first_le hcomplete hlist hmin

/-- In the case of two methods the string that is not shared is enough. -/
theorem greedyFingerprint_build_of_first_twoMethods :
    ∃ o, (build twoMethods {}).minimalFingerprints ⟨"La;f()V"⟩ = .ok o ∧
      ∃ first rest, o.fingerprints = first :: rest ∧ first.size = 1 ∧
        (build twoMethods {}).greedyFingerprint ⟨"La;f()V"⟩ = .ok first ∧
        ∃ f, first = .ofList [f] ∧
          (Settings.featuresOf {} twoMethods).Isolates ⟨"La;f()V"⟩ first ∧
          ∀ g, (Settings.featuresOf {} twoMethods).Isolates ⟨"La;f()V"⟩ (.ofList [g]) → ¬g < f := by
  have hfeatures : Settings.featuresOf {} twoMethods ⟨"La;f()V"⟩ =
      some (.ofList [.accessFlags 1, .returnType "V", .string "x", .string "y"]) := by
    decide +kernel
  have hstring : (Settings.featuresOf {} twoMethods).Isolates ⟨"La;f()V"⟩
      (.ofList [.string "y"]) := by
    decide +kernel
  have h := presents_build twoMethods {}
  obtain ⟨t, hok⟩ := Target.exists_ofIndex_eq_ok h hfeatures (by decide +kernel)
  obtain ⟨o, ho, hcomplete, hanswers⟩ := h.minimalFingerprints_spec hok
  obtain ⟨first, rest, hlist, hsingle, -⟩ :=
    greedyFingerprint_build_of_first twoMethods {} ⟨"La;f()V"⟩ o ho
  have hone : first.size = 1 := by
    have hle : (FeatureSet.ofList [.string "y"]).size ≤ 1 := FeatureSet.size_ofList_le _
    have hmin := hstring.isMinimal_of_size_le_one hle
    exact Nat.le_antisymm ((hanswers.size_first_le hcomplete hlist hmin).trans hle)
      (hanswers.isMinimal_first hlist).1.size_pos
  exact ⟨o, ho, first, rest, hlist, hone, hsingle hone⟩

end Index

end MethodFingerprint
