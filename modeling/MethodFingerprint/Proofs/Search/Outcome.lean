import MethodFingerprint.Proofs.Search.Coverage
import MethodFingerprint.Search.Outcome

/-!
# What the exhaustive search answers

The search reports the hits that no other hit is a proper part of, smaller ones first. Two facts
about the walk turn this into statements about the corpus.

* Hits isolate the target, and a minimal fingerprint smaller than a hit is a hit. So a hit survives
  the comparison with the others exactly if it is a minimal fingerprint (`mem_minimal_found`),
  wherever the walk ended.
* At the end of a complete walk every minimal fingerprint is a hit (`mem_found_of_done`).

`Outcome.Answers` is the outcome of either kind of walk: nothing but minimal fingerprints, and all
that are smaller than one of them. `Index.Presents.search_cases` says when a search has one, and
`Index.Presents.minimalFingerprints_spec` that the search without limits has a complete one.

`FeatureSet.ListedFirst` is the strict order of the lists. It is linear, so a list is known by its
members, and to report a part of them is to report a sublist. A complete list starts with the
least minimal fingerprint (`Outcome.Answers.first_least`).
-/

namespace MethodFingerprint

namespace FeatureSet

variable {r s t : FeatureSet} {found : List FeatureSet}

/-! ### The order of the lists -/

/-- By size, then by tokens. -/
def ListedFirst (s t : FeatureSet) : Prop :=
  s.size < t.size ∨ s.size = t.size ∧ s < t

theorem lt_def : s < t ↔ s.toList < t.toList := Iff.rfl

theorem listedFirst_irrefl (s : FeatureSet) : ¬s.ListedFirst s := by
  rintro (h | ⟨-, h⟩)
  · exact Nat.lt_irrefl _ h
  · exact List.lt_irrefl s.toList h

theorem ListedFirst.trans (h : r.ListedFirst s) (h' : s.ListedFirst t) : r.ListedFirst t := by
  rcases h with h | ⟨hsize, h⟩ <;> rcases h' with h' | ⟨hsize', h'⟩
  · exact Or.inl (h.trans h')
  · exact Or.inl (hsize' ▸ h)
  · exact Or.inl (hsize ▸ h')
  · exact Or.inr ⟨hsize.trans hsize', List.lt_trans h h'⟩

theorem ListedFirst.size_le (h : s.ListedFirst t) : s.size ≤ t.size := by
  rcases h with h | ⟨h, -⟩
  · exact h.le
  · exact h.le

/-- Single features are listed by token. -/
theorem listedFirst_singleton_iff {f g : Feature} :
    (ofList [f]).ListedFirst (ofList [g]) ↔ f < g := by
  simp [ListedFirst, size, lt_def, List.cons_lt_cons_iff]

instance : Std.Irrefl ListedFirst := ⟨listedFirst_irrefl⟩

instance : Std.Antisymm ListedFirst :=
  ⟨fun s _ h h' ↦ absurd (h.trans h') (listedFirst_irrefl s)⟩

theorem not_lt_iff : ¬t < s ↔ s = t ∨ s < t := by
  rw [lt_def, lt_def, List.not_lt, List.le_iff_lt_or_eq, or_comm]
  refine or_congr_left ⟨fun h ↦ ext fun f ↦ ?_, fun h ↦ h ▸ rfl⟩
  rw [mem_def, mem_def, h]

/-- **The comparison that sorts the lists is this order or equality.** -/
theorem listedBefore_iff : s.listedBefore t = true ↔ s = t ∨ s.ListedFirst t := by
  simp only [listedBefore, Bool.or_eq_true, decide_eq_true_eq, Bool.and_eq_true, beq_iff_eq,
    Bool.not_eq_true', decide_eq_false_iff_not, not_lt_iff, ListedFirst]
  constructor
  · rintro (h | ⟨hsize, rfl | h⟩)
    · exact Or.inr (Or.inl h)
    · exact Or.inl rfl
    · exact Or.inr (Or.inr ⟨hsize, h⟩)
  · rintro (rfl | h | ⟨hsize, h⟩)
    · exact Or.inr ⟨rfl, Or.inl rfl⟩
    · exact Or.inl h
    · exact Or.inr ⟨hsize, Or.inr h⟩

theorem listedBefore_trans (r s t : FeatureSet) (h : r.listedBefore s = true)
    (h' : s.listedBefore t = true) : r.listedBefore t = true := by
  rw [listedBefore_iff] at h h' ⊢
  rcases h with rfl | h
  · exact h'
  · rcases h' with rfl | h'
    · exact Or.inr h
    · exact Or.inr (h.trans h')

theorem listedBefore_total (s t : FeatureSet) : (s.listedBefore t || t.listedBefore s) = true := by
  rw [Bool.or_eq_true, listedBefore_iff, listedBefore_iff]
  rcases Nat.lt_trichotomy s.size t.size with h | h | h
  · exact Or.inl (Or.inr (Or.inl h))
  · rcases Decidable.em (t < s) with hlt | hlt
    · exact Or.inr (Or.inr (Or.inr ⟨h.symm, hlt⟩))
    · exact Or.inl ((not_lt_iff.1 hlt).imp_right fun hlt ↦ Or.inr ⟨h, hlt⟩)
  · exact Or.inr (Or.inr (Or.inl h))

/-- **Sorting different sets lists them in this order.** -/
theorem pairwise_mergeSort_listedBefore {l : List FeatureSet} (h : l.Nodup) :
    (l.mergeSort listedBefore).Pairwise ListedFirst := by
  have hsorted : (l.mergeSort listedBefore).Pairwise fun s t ↦ s.listedBefore t = true :=
    List.pairwise_mergeSort listedBefore_trans listedBefore_total l
  have hnodup : (l.mergeSort listedBefore).Nodup := (List.mergeSort_perm l _).nodup_iff.2 h
  exact (hsorted.and hnodup).imp fun ⟨hle, hne⟩ ↦ (listedBefore_iff.1 hle).resolve_left hne

/-! ### The sets no other is a part of -/

theorem isStrictSupersetOf_iff : s.isStrictSupersetOf t = true ↔ t.size < s.size ∧ t ⊆ s := by
  simp only [isStrictSupersetOf, Bool.and_eq_true, decide_eq_true_eq, List.all_eq_true,
    contains_iff]
  rfl

theorem mem_minimal :
    s ∈ minimal found ↔ s ∈ found ∧ ∀ t ∈ found, t ⊆ s → s.size ≤ t.size := by
  simp only [minimal, List.mem_mergeSort, List.mem_filter, Bool.not_eq_true', List.any_eq_false,
    isStrictSupersetOf_iff, not_and_or]
  refine and_congr_right fun _ ↦ forall₂_congr fun t _ ↦ ?_
  rw [Nat.not_lt, imp_iff_not_or, or_comm]

/-- **They are listed in order, each once.** -/
theorem pairwise_minimal (h : found.Nodup) : (minimal found).Pairwise ListedFirst :=
  pairwise_mergeSort_listedBefore (h.filter _)

/-- **A list in order is a sublist of another one as soon as its members are.** -/
theorem sublist_of_subset {l l' : List FeatureSet} (hl : l.Pairwise ListedFirst)
    (hl' : l'.Pairwise ListedFirst) (h : ∀ s ∈ l, s ∈ l') : l.Sublist l' :=
  List.sublist_of_subperm_of_pairwise (List.subperm_of_subset hl.nodup h) hl hl'

end FeatureSet

/-! ### What the walk has found -/

namespace Walk

variable {t : Target} {v : FeatureView} {target : MethodId} {w : Walk} {r s : FeatureSet}

theorem mem_found : s ∈ w.found ↔ ∃ c ∈ w.hits, .ofList (c.map Ranked.feature) = s := by
  rw [found, List.mem_reverse, List.mem_map]

namespace Invariant

/-- No set is found twice. -/
theorem nodup_found (ht : t.StandsFor v target) (h : Invariant t w) : w.found.Nodup := by
  rw [found, List.nodup_reverse]
  refine h.hits_nodup.map_on fun c hc c' hc' heq ↦ ?_
  obtain ⟨hsub, -⟩ := h.hits_isolate c hc
  obtain ⟨hsub', -⟩ := h.hits_isolate c' hc'
  refine ht.eq_of_subset_of_subset hsub hsub' ?_ ?_
  · rw [← ht.subset_iff hsub.subset hsub'.subset, heq]
    exact FeatureSet.subset_refl _
  · rw [← ht.subset_iff hsub'.subset hsub.subset, heq]
    exact FeatureSet.subset_refl _

/-- **What was found isolates the target.** -/
theorem isolates_of_mem_found (ht : t.StandsFor v target) (h : Invariant t w) (hs : s ∈ w.found) :
    v.Isolates target s := by
  obtain ⟨c, hc, rfl⟩ := mem_found.1 hs
  obtain ⟨hsub, hi⟩ := h.hits_isolate c hc
  exact (ht.isolates_iff_isolates c hsub.subset).2 hi

/-- A minimal fingerprint is found if its combination is a hit. -/
theorem mem_found_of_isMinimal (ht : t.StandsFor v target) (hr : v.IsMinimal target r)
    (h : t.IsMinimal (t.combination r) → t.combination r ∈ w.hits) : r ∈ w.found := by
  have hset := Target.StandsFor.ofList_combination (ht.subset_of_isolates hr.1)
  refine mem_found.2 ⟨t.combination r, h ?_, hset⟩
  rw [← ht.isMinimal_iff (t.combination_sublist r).subset, hset]
  exact hr

/-- **A minimal fingerprint that is smaller than what was found was found.** -/
theorem mem_found_of_size_lt (ht : t.StandsFor v target) (h : Invariant t w)
    (hr : v.IsMinimal target r) (hs : s ∈ w.found) (hlt : r.size < s.size) : r ∈ w.found := by
  refine mem_found_of_isMinimal ht hr fun hmin ↦ ?_
  obtain ⟨c, hc, rfl⟩ := mem_found.1 hs
  refine h.mem_hits_of_length_lt (t.combination_sublist r) hmin hc ?_
  rw [← ht.size_ofList (h.hits_isolate c hc).1, ← ht.size_ofList (t.combination_sublist r),
    Target.StandsFor.ofList_combination (ht.subset_of_isolates hr.1)]
  exact hlt

/-- **With nothing pending, every minimal fingerprint was found.** -/
theorem mem_found_of_done (ht : t.StandsFor v target) (h : Invariant t w) (hdone : w.pending = [])
    (hr : v.IsMinimal target r) : r ∈ w.found := by
  refine mem_found_of_isMinimal ht hr fun hmin ↦ ?_
  have hprogress := h.toProgress
  rw [hdone] at hprogress
  exact hprogress.mem_hits_of_done (t.combination_sublist r) hmin

/-- What was found has a minimal fingerprint as a part, and that was found too. -/
theorem exists_isMinimal_mem_found (ht : t.StandsFor v target) (h : Invariant t w)
    (hs : s ∈ w.found) : ∃ r ∈ w.found, r ⊆ s ∧ v.IsMinimal target r := by
  obtain ⟨r, hr, hmin⟩ := (h.isolates_of_mem_found ht hs).exists_isMinimal
  by_cases hrs : r = s
  · exact ⟨r, hrs ▸ hs, hr, hmin⟩
  · have hlt := FeatureSet.size_lt_of_subset_of_ne hr hrs
    exact ⟨r, h.mem_found_of_size_lt ht hmin hs hlt, hr, hmin⟩

/-- **What survives the comparison is what is minimal in the corpus.** -/
theorem mem_minimal_found (ht : t.StandsFor v target) (h : Invariant t w) :
    s ∈ FeatureSet.minimal w.found ↔ s ∈ w.found ∧ v.IsMinimal target s := by
  rw [FeatureSet.mem_minimal]
  refine and_congr_right fun hs ↦ ⟨fun hall ↦ ?_, fun hmin r hr hsub ↦ ?_⟩
  · obtain ⟨r, hr, hsub, hmin⟩ := h.exists_isMinimal_mem_found ht hs
    rwa [← FeatureSet.eq_of_subset_of_size_le hsub (hall r hr hsub)]
  · rw [hmin.2 r hsub (h.isolates_of_mem_found ht hr)]

/-- Something is reported as soon as something was found. -/
theorem minimal_found_eq_nil_iff (ht : t.StandsFor v target) (h : Invariant t w) :
    FeatureSet.minimal w.found = [] ↔ w.found = [] := by
  constructor
  · intro hnil
    refine List.eq_nil_iff_forall_not_mem.2 fun s hs ↦ ?_
    obtain ⟨r, hr, -, hmin⟩ := h.exists_isMinimal_mem_found ht hs
    have hmem := (h.mem_minimal_found ht).2 ⟨hr, hmin⟩
    rw [hnil] at hmem
    cases hmem
  · intro hnil
    simp [hnil, FeatureSet.minimal]

end Invariant

/-! ### The outcome of a walk -/

/-- A walk that was cut before it found anything has no outcome. -/
theorem conclude_eq_error (hfound : w.found = []) :
    w.conclude target false = .error (.exhausted target w.branches) := by
  simp [conclude, hfound, FeatureSet.minimal]

/-- **Any other walk has one**: the sets that survive the comparison, and what the walk took. -/
theorem conclude_eq_ok (ht : t.StandsFor v target) (h : Invariant t w) {complete : Bool}
    (hok : complete = true ∨ w.found ≠ []) :
    w.conclude target complete =
      .ok ⟨target, FeatureSet.minimal w.found, complete, w.stats⟩ := by
  rw [conclude]
  refine if_neg ?_
  rw [Bool.and_eq_true, Bool.not_eq_true', List.isEmpty_iff, h.minimal_found_eq_nil_iff ht]
  rintro ⟨hfalse, hnil⟩
  rcases hok with htrue | hne
  · rw [hfalse] at htrue
    cases htrue
  · exact hne hnil

/-- What an outcome reports is what the walk found and counted. -/
theorem of_conclude_eq_ok {complete : Bool} {o : Outcome}
    (ho : w.conclude target complete = .ok o) :
    o.fingerprints = FeatureSet.minimal w.found ∧ o.complete = complete ∧ o.stats = w.stats := by
  rw [conclude] at ho
  split at ho
  · cases ho
  · cases ho
    exact ⟨rfl, rfl, rfl⟩

/-- A walk that was cut has no outcome without a fingerprint. -/
theorem fingerprints_ne_nil_of_conclude {complete : Bool} {o : Outcome}
    (ho : w.conclude target complete = .ok o) (hcut : o.complete = false) :
    o.fingerprints ≠ [] := by
  rw [conclude] at ho
  split at ho
  · cases ho
  · rename_i hcond
    cases ho
    obtain rfl : complete = false := hcut
    simpa using hcond

end Walk

/-! ### The exhaustive search -/

/-- What an outcome promises, complete or not: its fingerprints are minimal and in the order of the
lists, none is missing that is smaller than one of them, and a complete outcome misses none. -/
structure Outcome.Answers (o : Outcome) (v : FeatureView) (target : MethodId) : Prop where
  target_eq : o.target = target
  isMinimal : ∀ s ∈ o.fingerprints, v.IsMinimal target s
  sorted : o.fingerprints.Pairwise FeatureSet.ListedFirst
  mem_of_size_lt : ∀ s ∈ o.fingerprints, ∀ r, v.IsMinimal target r → r.size < s.size →
    r ∈ o.fingerprints
  mem_of_complete : o.complete = true → ∀ r, v.IsMinimal target r → r ∈ o.fingerprints

namespace Outcome.Answers

variable {o : Outcome} {v : FeatureView} {target : MethodId} {first s : FeatureSet}
  {rest : List FeatureSet}

/-- A complete outcome has a first fingerprint if there are any. -/
theorem exists_first (h : o.Answers v target) (hcomplete : o.complete = true)
    (hs : v.IsMinimal target s) : ∃ first rest, o.fingerprints = first :: rest :=
  List.exists_cons_of_ne_nil (List.ne_nil_of_mem (h.mem_of_complete hcomplete s hs))

theorem isMinimal_first (h : o.Answers v target) (hlist : o.fingerprints = first :: rest) :
    v.IsMinimal target first :=
  h.isMinimal first (hlist ▸ List.mem_cons_self)

/-- **The first of a complete outcome is the least** of all minimal fingerprints. -/
theorem first_least (h : o.Answers v target) (hcomplete : o.complete = true)
    (hlist : o.fingerprints = first :: rest) (hs : v.IsMinimal target s) :
    s = first ∨ first.ListedFirst s := by
  have hsorted := h.sorted
  have hmem := h.mem_of_complete hcomplete s hs
  rw [hlist] at hsorted hmem
  exact (List.mem_cons.1 hmem).imp_right ((List.pairwise_cons.1 hsorted).1 s)

/-- So no minimal fingerprint is smaller than the first. -/
theorem size_first_le (h : o.Answers v target) (hcomplete : o.complete = true)
    (hlist : o.fingerprints = first :: rest) (hs : v.IsMinimal target s) :
    first.size ≤ s.size := by
  rcases h.first_least hcomplete hlist hs with rfl | hlt
  · exact Nat.le_refl _
  · exact hlt.size_le

end Outcome.Answers

namespace Index

variable {x : Index} {v : FeatureView} {t : Target} {target : MethodId}

/-- A target that passes the checks is searched by a run of the walk. -/
theorem search_eq_conclude (hok : Target.ofIndex x target = .ok t) (budget : Budget)
    (clock : Clock) : x.search budget clock target =
      ((Walk.start t).run budget clock t.slot).1.conclude target
        ((Walk.start t).run budget clock t.slot).2 := by
  rw [search, hok]

/-- A walk that may be concluded answers. -/
theorem Presents.exists_answers (h : x.Presents v) (hok : Target.ofIndex x target = .ok t)
    {w : Walk} {complete : Bool} (hreaches : Walk.Reaches t.slot (Walk.start t) w)
    (hdone : complete = true → w.pending = []) (hfound : complete = true ∨ w.found ≠ []) :
    ∃ o, w.conclude target complete = .ok o ∧ o.complete = complete ∧ o.Answers v target := by
  have ht := Target.standsFor_of_ofIndex h hok
  have hinv := Walk.Invariant.of_reaches ht.toWellRanked hreaches
  refine ⟨_, Walk.conclude_eq_ok ht hinv hfound, rfl, ?_⟩
  constructor
  · rfl
  · intro s hs
    exact ((hinv.mem_minimal_found ht).1 hs).2
  · exact FeatureSet.pairwise_minimal (hinv.nodup_found ht)
  · intro s hs r hr hlt
    have hsfound := ((hinv.mem_minimal_found ht).1 hs).1
    exact (hinv.mem_minimal_found ht).2 ⟨hinv.mem_found_of_size_lt ht hr hsfound hlt, hr⟩
  · intro hcomplete r hr
    exact (hinv.mem_minimal_found ht).2 ⟨hinv.mem_found_of_done ht (hdone hcomplete) hr, hr⟩

/-- **What a search within a budget answers**: nothing if it was cut before it found anything, and
otherwise an outcome that is complete unless it was cut. -/
theorem Presents.search_cases (h : x.Presents v) (hok : Target.ofIndex x target = .ok t)
    (budget : Budget) (clock : Clock) {w : Walk}
    (hw : ((Walk.start t).run budget clock t.slot).1 = w) :
    (w.IsCut budget clock ∧ w.found = [] ∧
      x.search budget clock target = .error (.exhausted target w.branches)) ∨
    (¬(w.IsCut budget clock ∧ w.found = []) ∧ ∃ o, x.search budget clock target = .ok o ∧
      (o.complete = true ↔ ¬w.IsCut budget clock) ∧ o.Answers v target) := by
  obtain ⟨hreaches, hdone, hcut⟩ := Walk.run_spec budget clock t.slot (Walk.start t)
  have hcomplete := Walk.run_complete_iff budget clock t.slot (Walk.start t)
  rw [search_eq_conclude hok]
  rw [hw] at hreaches hdone hcut hcomplete ⊢
  by_cases hnone : w.IsCut budget clock ∧ w.found = []
  · refine Or.inl ⟨hnone.1, hnone.2, ?_⟩
    have hfalse : ((Walk.start t).run budget clock t.slot).2 = false :=
      Bool.eq_false_iff.2 fun htrue ↦ hcomplete.1 htrue hnone.1
    rw [hfalse]
    exact Walk.conclude_eq_error hnone.2
  · refine Or.inr ⟨hnone, ?_⟩
    obtain ⟨o, ho, hflag, hanswers⟩ := h.exists_answers hok hreaches hdone (by
      rw [hcomplete]
      exact not_and_or.1 hnone)
    exact ⟨o, ho, hflag ▸ hcomplete, hanswers⟩

/-- **The search without limits answers completely.** -/
theorem Presents.minimalFingerprints_spec (h : x.Presents v)
    (hok : Target.ofIndex x target = .ok t) :
    ∃ o, x.minimalFingerprints target = .ok o ∧ o.complete = true ∧ o.Answers v target := by
  rcases h.search_cases hok .unlimited .still rfl with ⟨hcut, -⟩ | ⟨-, o, ho, hcomplete, hanswers⟩
  · exact absurd hcut (Walk.not_isCut_unlimited _ _)
  · exact ⟨o, ho, hcomplete.2 (Walk.not_isCut_unlimited _ _), hanswers⟩

/-- Two methods, the first of which is recorded again after the second. Its string tells the two
apart in the end, while the string recorded at first does not. -/
def twoMethods : List Method :=
  [⟨"La;", "f", 1, "V", [], [], ["x"]⟩, ⟨"La;", "g", 1, "V", [], [], ["x"]⟩,
    ⟨"La;", "f", 1, "V", [], [], ["x", "y"]⟩]

/-- **Exactness of the exhaustive search.** A target whose features isolate it gets a complete
outcome, and its fingerprints are exactly the minimal ones of the corpus, by size and then by
tokens. -/
theorem minimalFingerprints_build_of_isolates (methods : List Method) (settings : Settings)
    (target : MethodId) (features : FeatureSet)
    (hfeatures : settings.featuresOf methods target = some features)
    (hisolates : (settings.featuresOf methods).Isolates target features) :
    ∃ o, (build methods settings).minimalFingerprints target = .ok o ∧
      o.target = target ∧ o.complete = true ∧
      (∀ s, s ∈ o.fingerprints ↔ (settings.featuresOf methods).IsMinimal target s) ∧
      o.fingerprints.Nodup ∧ (∀ s ∈ o.fingerprints, s.toList.Pairwise (· < ·)) ∧
      o.fingerprints.Pairwise FeatureSet.ListedFirst := by
  have h := presents_build methods settings
  obtain ⟨t, hok⟩ := Target.exists_ofIndex_eq_ok h hfeatures hisolates
  obtain ⟨o, ho, hcomplete, hanswers⟩ := h.minimalFingerprints_spec hok
  refine ⟨o, ho, hanswers.target_eq, hcomplete, fun s ↦ ?_, hanswers.sorted.nodup,
    fun s _ ↦ s.ascending, hanswers.sorted⟩
  exact ⟨hanswers.isMinimal s, hanswers.mem_of_complete hcomplete s⟩

/-- The case of two methods. -/
theorem minimalFingerprints_build_twoMethods :
    Settings.featuresOf {} twoMethods ⟨"La;f()V"⟩ =
      some (.ofList [.accessFlags 1, .returnType "V", .string "x", .string "y"]) ∧
    ∃ o, (build twoMethods {}).minimalFingerprints ⟨"La;f()V"⟩ = .ok o ∧
      o.target = ⟨"La;f()V"⟩ ∧ o.complete = true ∧
      (∀ s, s ∈ o.fingerprints ↔ (Settings.featuresOf {} twoMethods).IsMinimal ⟨"La;f()V"⟩ s) ∧
      o.fingerprints.Nodup ∧ (∀ s ∈ o.fingerprints, s.toList.Pairwise (· < ·)) ∧
      o.fingerprints.Pairwise FeatureSet.ListedFirst :=
  have hfeatures : Settings.featuresOf {} twoMethods ⟨"La;f()V"⟩ =
      some (.ofList [.accessFlags 1, .returnType "V", .string "x", .string "y"]) := by
    decide +kernel
  ⟨hfeatures, minimalFingerprints_build_of_isolates twoMethods {} ⟨"La;f()V"⟩ _ hfeatures
    (by decide +kernel)⟩

/-- **Soundness of a cut.** Whatever the budget and the clock, the search for a target whose
features isolate it reports a part of the complete list in the same order, with every minimal
fingerprint that is smaller than one it reports, so the first is of the smallest size; a complete
outcome has the whole list; and the search fails exactly if it was cut before anything was found. -/
theorem search_build_of_isolates (methods : List Method) (settings : Settings)
    (target : MethodId) (features : FeatureSet)
    (hfeatures : settings.featuresOf methods target = some features)
    (hisolates : (settings.featuresOf methods).Isolates target features)
    (budget : Budget) (clock : Clock) :
    ∃ full t w, (build methods settings).minimalFingerprints target = .ok full ∧
      Target.ofIndex (build methods settings) target = .ok t ∧
      ((Walk.start t).run budget clock t.slot).1 = w ∧
      ((w.IsCut budget clock ∧ w.found = [] ∧
          (build methods settings).search budget clock target =
            .error (.exhausted target w.branches)) ∨
        (¬(w.IsCut budget clock ∧ w.found = []) ∧
          ∃ o, (build methods settings).search budget clock target = .ok o ∧
            o.target = target ∧ (o.complete = true ↔ ¬w.IsCut budget clock) ∧
            o.fingerprints.Sublist full.fingerprints ∧
            (∀ s ∈ o.fingerprints, ∀ r, (settings.featuresOf methods).IsMinimal target r →
              r.size < s.size → r ∈ o.fingerprints) ∧
            (∀ s ∈ o.fingerprints.head?, ∀ r, (settings.featuresOf methods).IsMinimal target r →
              s.size ≤ r.size) ∧
            (o.complete = true → o.fingerprints = full.fingerprints))) := by
  have h := presents_build methods settings
  obtain ⟨t, hok⟩ := Target.exists_ofIndex_eq_ok h hfeatures hisolates
  obtain ⟨full, hfull, hcomplete, hanswers⟩ := h.minimalFingerprints_spec hok
  refine ⟨full, t, _, hfull, hok, rfl, ?_⟩
  refine (h.search_cases hok budget clock rfl).imp_right fun ⟨hnone, o, ho, hflag, hpart⟩ ↦ ?_
  have hsub : o.fingerprints.Sublist full.fingerprints :=
    FeatureSet.sublist_of_subset hpart.sorted hanswers.sorted fun s hs ↦
      hanswers.mem_of_complete hcomplete s (hpart.isMinimal s hs)
  refine ⟨hnone, o, ho, hpart.target_eq, hflag, hsub, hpart.mem_of_size_lt, ?_, fun hall ↦ ?_⟩
  · intro s hs r hr
    by_contra hlt
    -- a smaller one would be reported, but only behind the first
    have hmem := hpart.mem_of_size_lt s (List.mem_of_mem_head? hs) r hr (Nat.lt_of_not_le hlt)
    obtain ⟨rest, hrest⟩ := List.head?_eq_some_iff.1 hs
    have hsorted := hpart.sorted
    rw [hrest] at hsorted hmem
    rcases List.mem_cons.1 hmem with rfl | hmem
    · exact hlt (Nat.le_refl _)
    · exact hlt ((List.pairwise_cons.1 hsorted).1 r hmem).size_le
  · refine hsub.antisymm (FeatureSet.sublist_of_subset hanswers.sorted hpart.sorted fun s hs ↦ ?_)
    exact hpart.mem_of_complete hall s (hanswers.isMinimal s hs)

/-- The case of two methods, one extension and no time. -/
theorem search_build_twoMethods :
    ∃ full t w, (build twoMethods {}).minimalFingerprints ⟨"La;f()V"⟩ = .ok full ∧
      Target.ofIndex (build twoMethods {}) ⟨"La;f()V"⟩ = .ok t ∧
      ((Walk.start t).run ⟨some 1, some 0⟩ .still t.slot).1 = w ∧
      ((w.IsCut ⟨some 1, some 0⟩ .still ∧ w.found = [] ∧
          (build twoMethods {}).search ⟨some 1, some 0⟩ .still ⟨"La;f()V"⟩ =
            .error (.exhausted ⟨"La;f()V"⟩ w.branches)) ∨
        (¬(w.IsCut ⟨some 1, some 0⟩ .still ∧ w.found = []) ∧
          ∃ o, (build twoMethods {}).search ⟨some 1, some 0⟩ .still ⟨"La;f()V"⟩ = .ok o ∧
            o.target = ⟨"La;f()V"⟩ ∧ (o.complete = true ↔ ¬w.IsCut ⟨some 1, some 0⟩ .still) ∧
            o.fingerprints.Sublist full.fingerprints ∧
            (∀ s ∈ o.fingerprints, ∀ r, (Settings.featuresOf {} twoMethods).IsMinimal
              ⟨"La;f()V"⟩ r → r.size < s.size → r ∈ o.fingerprints) ∧
            (∀ s ∈ o.fingerprints.head?, ∀ r, (Settings.featuresOf {} twoMethods).IsMinimal
              ⟨"La;f()V"⟩ r → s.size ≤ r.size) ∧
            (o.complete = true → o.fingerprints = full.fingerprints))) :=
  search_build_of_isolates twoMethods {} ⟨"La;f()V"⟩
    (.ofList [.accessFlags 1, .returnType "V", .string "x", .string "y"]) (by decide +kernel)
    (by decide +kernel) ⟨some 1, some 0⟩ .still

end Index

end MethodFingerprint
