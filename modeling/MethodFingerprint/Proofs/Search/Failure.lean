import MethodFingerprint.Proofs.Search.Outcome

/-!
# Which targets have no answer

The checks made up front ask three questions of the view of a corpus, in this order: is the target
in it, has it any features, and do they isolate it. `Target.ofIndex_cases` says so, and what error
goes with which answer. Nothing else can go wrong in a search without limits
(`Index.Presents.minimalFingerprints_cases`).

The ids in an error are those of the other methods that carry all features of the target
(`Target.mem_colliding`), in strictly ascending order (`Target.pairwise_colliding`). As the order is
linear, the list is known by its members.

`Index.allFingerprints` is the answer without its error: the minimal fingerprints, none if the
search fails. Failing is then the same as having none (`Index.Presents.mem_allFingerprints`).
-/

namespace MethodFingerprint

/-! ### The order of the ids -/

namespace MethodId

variable {a b c : MethodId}

theorem lt_irrefl (a : MethodId) : ¬a < a :=
  String.lt_irrefl a.text

theorem lt_trans (hab : a < b) (hbc : b < c) : a < c :=
  String.lt_trans hab hbc

instance : Trans (α := MethodId) (· < ·) (· < ·) (· < ·) := ⟨lt_trans⟩

instance : Std.Asymm (α := MethodId) (· < ·) :=
  ⟨fun a _ h h' ↦ lt_irrefl a (lt_trans h h')⟩

instance : Std.Trichotomous (α := MethodId) (· < ·) :=
  ⟨fun a b h h' ↦
    congrArg MethodId.mk (Std.Trichotomous.trichotomous (r := (· < ·)) a.text b.text h h')⟩

end MethodId

/-! ### The methods in the way -/

/-- The features of an id isolate it unless there are none or another id carries them all. -/
theorem FeatureView.isolates_features_iff {v : FeatureView} {target : MethodId}
    {features : FeatureSet} (hv : v target = some features) :
    v.Isolates target features ↔ features ≠ ∅ ∧ ∀ id, v.Carries features id → id = target := by
  refine and_congr_right fun _ ↦ forall_congr' fun id ↦ ⟨Iff.mp, fun h ↦ ⟨h, ?_⟩⟩
  rintro rfl
  exact ⟨features, hv, FeatureSet.subset_refl features⟩

namespace Index

variable {x : Index} {v : FeatureView} {id target : MethodId} {slot : Slot} {slots : List Slot}

theorem Coherent.mem_idsOf (h : x.Coherent) :
    id ∈ x.idsOf slots ↔ ∃ slot ∈ slots, x.slots[id]? = some slot := by
  simp only [idsOf, List.mem_filterMap, Option.map_eq_some_iff, h.slots_iff]

/-- Different slots have different ids. -/
theorem Coherent.nodup_idsOf (h : x.Coherent) (hslots : slots.Nodup) : (x.idsOf slots).Nodup := by
  refine hslots.filterMap fun s s' id hid hid' ↦ ?_
  obtain ⟨e, he, rfl⟩ := Option.map_eq_some_iff.1 hid
  obtain ⟨e', he', heq⟩ := Option.map_eq_some_iff.1 hid'
  have hs := (h.slots_iff e.id s).2 ⟨e, he, rfl⟩
  have hs' := (h.slots_iff e.id s').2 ⟨e', he', heq⟩
  exact Option.some.inj (hs.symm.trans hs')

end Index

namespace Target

variable {x : Index} {v : FeatureView} {id target : MethodId} {slot : Slot} {fs : List Feature}

/-- **The ids in an error are those of the other methods that carry all features.** -/
theorem mem_colliding (h : x.Presents v) (hslot : x.slots[target]? = some slot) :
    id ∈ colliding x slot (x.candidatesOf fs) ↔ id ≠ target ∧ v.Carries (.ofList fs) id := by
  rw [colliding, List.mem_mergeSort, h.mem_idsOf]
  have hcarries : v.Carries (.ofList fs) id ↔
      ∃ s, x.slots[id]? = some s ∧ s ∈ x.candidatesOf fs := by
    rw [← h.forall_mem_iff]
    simp only [FeatureView.Carries, FeatureSet.subset_def, FeatureSet.mem_ofList]
  rw [hcarries]
  constructor
  · rintro ⟨s, hs, hid⟩
    obtain ⟨hs, hne⟩ := List.mem_filter.1 hs
    refine ⟨?_, s, hid, hs⟩
    rintro rfl
    obtain rfl := Option.some.inj (hslot.symm.trans hid)
    simp at hne
  · rintro ⟨hne, s, hid, hs⟩
    refine ⟨s, List.mem_filter.2 ⟨hs, ?_⟩, hid⟩
    rw [decide_eq_true_eq]
    rintro rfl
    exact hne (h.slots_inj hid hslot)

/-- **They are listed in strictly ascending order.** -/
theorem pairwise_colliding (h : x.Coherent) (slot : Slot) (fs : List Feature) :
    (colliding x slot (x.candidatesOf fs)).Pairwise (· < ·) := by
  refine pairwise_lt_mergeSort (h.nodup_idsOf ?_)
  exact (h.ascending_candidatesOf fs).nodup.filter _

/-! ### The checks -/

/-- **What the checks ask of the view**, and the error for each answer but the last. -/
theorem ofIndex_cases (h : x.Presents v) (target : MethodId) :
    (v target = none ∧ ofIndex x target = .error (.notFound target)) ∨
    (v target = some ∅ ∧ ofIndex x target = .error (.noFeatures target)) ∨
    (∃ features slot, v target = some features ∧ features ≠ ∅ ∧ ¬v.Isolates target features ∧
      x.slots[target]? = some slot ∧ ofIndex x target =
        .error (.indistinguishable target
          (colliding x slot (x.candidatesOf features.toList)).length
          (colliding x slot (x.candidatesOf features.toList)))) ∨
    (∃ features, v target = some features ∧ v.Isolates target features ∧
      ∃ t, ofIndex x target = .ok t) := by
  cases hslot : x.slots[target]? with
  | none =>
    have hv : v target = none := by
      rw [← h.features_eq target, hslot]
      rfl
    refine Or.inl ⟨hv, ?_⟩
    rw [ofIndex, Index.slot, hslot]
  | some slot =>
    have hv : v target = some (x.featuresAt slot) := h.eq_some_iff.2 ⟨slot, hslot, rfl⟩
    have hiff : v.Isolates target (x.featuresAt slot) ↔ (x.featuresAt slot).toList ≠ [] ∧
        x.candidatesOf (x.featuresAt slot).toList = [slot] := by
      rw [← h.isolates_iff hslot, FeatureSet.ofList_toList]
    refine Or.inr ?_
    by_cases hempty : (x.featuresAt slot).toList = []
    · have hnone : x.featuresAt slot = ∅ := by
        rw [← FeatureSet.ofList_toList (x.featuresAt slot), hempty]
        rfl
      refine Or.inl ⟨hnone ▸ hv, ?_⟩
      simp [ofIndex, Index.slot, hslot, FeatureSet.isEmpty, hempty]
    · refine Or.inr ?_
      by_cases hrem : x.candidatesOf (x.featuresAt slot).toList = [slot]
      · refine Or.inr ⟨_, hv, hiff.2 ⟨hempty, hrem⟩, ?_⟩
        exact ⟨_, ofIndex_eq_ok_iff.2 ⟨slot, hslot, hempty, hrem, rfl⟩⟩
      · refine Or.inl ⟨_, slot, hv, ?_, fun hi ↦ hrem (hiff.1 hi).2, rfl, ?_⟩
        · intro hnone
          exact hempty (congrArg FeatureSet.toList hnone)
        · simp [ofIndex, Index.slot, hslot, FeatureSet.isEmpty, hempty, hrem]

/-- **A target is not found** exactly if it is not in the view. -/
theorem ofIndex_eq_notFound_iff (h : x.Presents v) :
    ofIndex x target = .error (.notFound id) ↔ id = target ∧ v target = none := by
  rcases ofIndex_cases h target with ⟨hv, he⟩ | ⟨hv, he⟩ | ⟨features, slot, hv, -, -, -, he⟩ |
    ⟨features, hv, -, t, he⟩ <;> simp [he, hv, eq_comm]

/-- **A target has no features** exactly if the view says so. -/
theorem ofIndex_eq_noFeatures_iff (h : x.Presents v) :
    ofIndex x target = .error (.noFeatures id) ↔ id = target ∧ v target = some ∅ := by
  rcases ofIndex_cases h target with ⟨hv, he⟩ | ⟨hv, he⟩ | ⟨features, slot, hv, hne, -, -, he⟩ |
    ⟨features, hv, hi, t, he⟩
  · simp [he, hv]
  · simp [he, hv, eq_comm]
  · simp [he, hv, hne]
  · simp [he, hv, hi.1]

/-- **A target cannot be told apart** exactly if it has features that do not isolate it. -/
theorem exists_ofIndex_eq_indistinguishable_iff (h : x.Presents v) :
    (∃ id count ids, ofIndex x target = .error (.indistinguishable id count ids)) ↔
      ∃ features, v target = some features ∧ features ≠ ∅ ∧ ¬v.Isolates target features := by
  rcases ofIndex_cases h target with ⟨hv, he⟩ | ⟨hv, he⟩ | ⟨features, slot, hv, hne, hi, -, he⟩ |
    ⟨features, hv, hi, t, he⟩
  · simp [he, hv]
  · simp [he, hv]
  · simp [he, hv, hne, hi]
  · simp [he, hv, hi]

/-- **The error lists the ids in the way** with their number, and there are some. -/
theorem of_ofIndex_eq_indistinguishable (h : x.Presents v) {count : Nat} {ids : List MethodId}
    (he : ofIndex x target = .error (.indistinguishable id count ids)) :
    id = target ∧ count = ids.length ∧ ids ≠ [] ∧ ids.Pairwise (· < ·) ∧
      ∃ features, v target = some features ∧
        ∀ other, other ∈ ids ↔ other ≠ target ∧ v.Carries features other := by
  rcases ofIndex_cases h target with ⟨-, he'⟩ | ⟨-, he'⟩ |
    ⟨features, slot, hv, hne, hi, hslot, he'⟩ | ⟨-, -, -, t, he'⟩
  · cases he.symm.trans he'
  · cases he.symm.trans he'
  · cases he.symm.trans he'
    have hmem (other : MethodId) : other ∈ colliding x slot (x.candidatesOf features.toList) ↔
        other ≠ id ∧ v.Carries features other := by
      rw [mem_colliding h hslot, FeatureSet.ofList_toList]
    refine ⟨rfl, rfl, fun hnil ↦ hi ?_, pairwise_colliding h.toCoherent _ _, features, hv, hmem⟩
    -- with no id in the list, the features would isolate the target
    refine (FeatureView.isolates_features_iff hv).2 ⟨hne, fun other hother ↦ ?_⟩
    by_contra hne'
    have hlisted := (hmem other).2 ⟨hne', hother⟩
    rw [hnil] at hlisted
    cases hlisted
  · cases he.symm.trans he'

end Target

/-! ### The searches -/

/-- The features of a target with a minimal fingerprint isolate it. -/
theorem FeatureView.IsMinimal.isolates_features {v : FeatureView} {target : MethodId}
    {s features : FeatureSet} (h : v.IsMinimal target s) (hv : v target = some features) :
    v.Isolates target features := by
  obtain ⟨u, hu, hsub⟩ := h.1.carries
  obtain rfl := Option.some.inj (hv.symm.trans hu)
  exact h.1.mono hsub ⟨features, hv, FeatureSet.subset_refl features⟩

namespace Index

variable {x : Index} {v : FeatureView} {target : MethodId} {e : SearchError} {s : FeatureSet}

/-- A search fails at once if the checks do, whatever its budget. -/
theorem search_eq_error (h : Target.ofIndex x target = .error e) (budget : Budget) (clock : Clock) :
    x.search budget clock target = .error e := by
  rw [search, h]

/-- **Limits add one kind of error only.** A search fails in any other way exactly if the checks do,
and they know of no budget. -/
theorem Presents.search_eq_error_iff (h : x.Presents v) (he : ∀ id n, e ≠ .exhausted id n)
    (budget : Budget) (clock : Clock) :
    x.search budget clock target = .error e ↔ Target.ofIndex x target = .error e := by
  refine ⟨fun hsearch ↦ ?_, fun hcheck ↦ search_eq_error hcheck budget clock⟩
  cases hok : Target.ofIndex x target with
  | error e' => rw [Except.error.inj ((search_eq_error hok budget clock).symm.trans hsearch)]
  | ok t =>
    rcases h.search_cases hok budget clock rfl with ⟨-, -, hexhausted⟩ | ⟨-, o, ho, -⟩
    · cases hsearch.symm.trans hexhausted
      exact absurd rfl (he _ _)
    · cases hsearch.symm.trans ho

/-- **An outcome answers**, whatever the budget. -/
theorem Presents.answers (h : x.Presents v) {budget : Budget} {clock : Clock} {o : Outcome}
    (ho : x.search budget clock target = .ok o) : o.Answers v target := by
  cases hok : Target.ofIndex x target with
  | error e => cases (search_eq_error hok budget clock).symm.trans ho
  | ok t =>
    rcases h.search_cases hok budget clock rfl with ⟨-, -, hexhausted⟩ | ⟨-, o', ho', -, hanswers⟩
    · cases ho.symm.trans hexhausted
    · rwa [← Except.ok.inj (ho'.symm.trans ho)]

/-- **A search with an outcome reports something**: cut short without a fingerprint it would have
failed, and a complete one finds a minimal part of the features of the target. -/
theorem Presents.fingerprints_ne_nil (h : x.Presents v) {budget : Budget} {clock : Clock}
    {o : Outcome} (ho : x.search budget clock target = .ok o) : o.fingerprints ≠ [] := by
  have hanswers := h.answers ho
  cases hok : Target.ofIndex x target with
  | error e => cases (search_eq_error hok budget clock).symm.trans ho
  | ok t =>
    rw [search_eq_conclude hok] at ho
    cases hcomplete : o.complete with
    | false => exact Walk.fingerprints_ne_nil_of_conclude ho hcomplete
    | true =>
      have ht := Target.standsFor_of_ofIndex h hok
      have hi := (ht.isolates_iff_isolates _ (List.Subset.refl _)).2 ht.isolates_ranked
      obtain ⟨s, -, hs⟩ := hi.exists_isMinimal
      exact List.ne_nil_of_mem (hanswers.mem_of_complete hcomplete s hs)

/-- **What the search without limits answers.** -/
theorem Presents.minimalFingerprints_cases (h : x.Presents v) (target : MethodId) :
    (v target = none ∧ x.minimalFingerprints target = .error (.notFound target)) ∨
    (v target = some ∅ ∧ x.minimalFingerprints target = .error (.noFeatures target)) ∨
    (∃ features, v target = some features ∧ features ≠ ∅ ∧ ¬v.Isolates target features ∧
      ∃ colliding, x.minimalFingerprints target =
        .error (.indistinguishable target colliding.length colliding)) ∨
    (∃ features, v target = some features ∧ v.Isolates target features ∧
      ∃ o, x.minimalFingerprints target = .ok o ∧ o.complete = true ∧ o.Answers v target) := by
  rcases Target.ofIndex_cases h target with ⟨hv, he⟩ | ⟨hv, he⟩ |
    ⟨features, slot, hv, hne, hi, -, he⟩ | ⟨features, hv, hi, t, hok⟩
  · exact Or.inl ⟨hv, search_eq_error he _ _⟩
  · exact Or.inr (Or.inl ⟨hv, search_eq_error he _ _⟩)
  · exact Or.inr (Or.inr (Or.inl ⟨features, hv, hne, hi, _, search_eq_error he _ _⟩))
  · exact Or.inr (Or.inr (Or.inr ⟨features, hv, hi, h.minimalFingerprints_spec hok⟩))

/-- The fingerprints that the search without limits reports, none if it fails. -/
def allFingerprints (x : Index) (target : MethodId) : List Fingerprint :=
  match x.minimalFingerprints target with
  | .ok o => o.fingerprints
  | .error _ => []

/-- **The search reports the minimal fingerprints**, for every target. -/
theorem Presents.mem_allFingerprints (h : x.Presents v) :
    s ∈ x.allFingerprints target ↔ v.IsMinimal target s := by
  unfold allFingerprints
  rcases h.minimalFingerprints_cases target with ⟨hv, he⟩ | ⟨hv, he⟩ |
    ⟨features, hv, hne, hi, colliding, he⟩ | ⟨features, hv, hi, o, ho, hcomplete, hanswers⟩
  · rw [he]
    refine iff_of_false List.not_mem_nil fun hs ↦ ?_
    obtain ⟨u, hu, -⟩ := hs.1.carries
    rw [hv] at hu
    cases hu
  · rw [he]
    exact iff_of_false List.not_mem_nil fun hs ↦ (hs.isolates_features hv).1 rfl
  · rw [he]
    exact iff_of_false List.not_mem_nil fun hs ↦ hi (hs.isolates_features hv)
  · rw [ho]
    exact ⟨hanswers.isMinimal s, hanswers.mem_of_complete hcomplete s⟩

/-- **The search without limits finds what is minimal**, for every target. -/
theorem Presents.exists_minimalFingerprints_iff (h : x.Presents v) :
    (∃ o, x.minimalFingerprints target = .ok o ∧ s ∈ o.fingerprints) ↔ v.IsMinimal target s := by
  rw [← h.mem_allFingerprints, allFingerprints]
  cases x.minimalFingerprints target <;> simp

/-- **They are listed in order.** -/
theorem Presents.pairwise_allFingerprints (h : x.Presents v) (target : MethodId) :
    (x.allFingerprints target).Pairwise FeatureSet.ListedFirst := by
  unfold allFingerprints
  rcases h.minimalFingerprints_cases target with ⟨-, he⟩ | ⟨-, he⟩ | ⟨-, -, -, -, colliding, he⟩ |
    ⟨-, -, -, o, ho, -, hanswers⟩
  · rw [he]
    exact List.Pairwise.nil
  · rw [he]
    exact List.Pairwise.nil
  · rw [he]
    exact List.Pairwise.nil
  · rw [ho]
    exact hanswers.sorted

/-- **Failure classification.** Whatever the budget and the clock, the search for an id fails

* as not found exactly if no record has the id,
* for want of features exactly if the last record of the id has none, and
* as indistinguishable exactly if other ids carry all features of the id, with these ids in strictly
  ascending order and their number, which is at least one; the id itself is never among them.

The three are the errors of the checks, which know of no budget. In every other case the search
without limits finds a fingerprint, and within limits it finds one or is exhausted. -/
theorem search_build_classified (methods : List Method) (settings : Settings) (target : MethodId)
    (budget : Budget) (clock : Clock) :
    (∀ id, (build methods settings).search budget clock target = .error (.notFound id) ↔
      id = target ∧ ∀ m ∈ methods, m.id ≠ target) ∧
    (∀ id, (build methods settings).search budget clock target = .error (.noFeatures id) ↔
      id = target ∧ settings.featuresOf methods target = some ∅) ∧
    ((∃ id count ids, (build methods settings).search budget clock target =
        .error (.indistinguishable id count ids)) ↔
      ∃ features, settings.featuresOf methods target = some features ∧ features ≠ ∅ ∧
        ∃ other, other ≠ target ∧ (settings.featuresOf methods).Carries features other) ∧
    (∀ id count ids, (build methods settings).search budget clock target =
        .error (.indistinguishable id count ids) →
      id = target ∧ ids.Pairwise (· < ·) ∧ target ∉ ids ∧ count = ids.length ∧ 1 ≤ count ∧
        ∀ features, settings.featuresOf methods target = some features → ∀ other,
          other ∈ ids ↔ other ≠ target ∧ (settings.featuresOf methods).Carries features other) ∧
    (∀ e, (∀ id n, e ≠ .exhausted id n) →
      ((build methods settings).search budget clock target = .error e ↔
        Target.ofIndex (build methods settings) target = .error e)) ∧
    (∀ features, settings.featuresOf methods target = some features → features ≠ ∅ →
      (∀ other, (settings.featuresOf methods).Carries features other → other = target) →
        (∃ o, (build methods settings).search .unlimited clock target = .ok o ∧
          o.fingerprints ≠ []) ∧
        ((∃ o, (build methods settings).search budget clock target = .ok o ∧
            o.fingerprints ≠ []) ∨
          ∃ n, (build methods settings).search budget clock target =
            .error (.exhausted target n))) := by
  have h := presents_build methods settings
  have herror {e : SearchError} (he : ∀ id n, e ≠ .exhausted id n) :
      (build methods settings).search budget clock target = .error e ↔
        Target.ofIndex (build methods settings) target = .error e :=
    h.search_eq_error_iff he budget clock
  have hids (id : MethodId) (count : Nat) (ids : List MethodId) :=
    herror (e := .indistinguishable id count ids) (by simp)
  refine ⟨fun id ↦ ?_, fun id ↦ ?_, ?_, fun id count ids he ↦ ?_, fun e he ↦ herror he, ?_⟩
  · rw [herror (by simp), Target.ofIndex_eq_notFound_iff h, Settings.featuresOf_eq_none_iff]
  · rw [herror (by simp), Target.ofIndex_eq_noFeatures_iff h]
  · simp only [hids, Target.exists_ofIndex_eq_indistinguishable_iff h]
    refine exists_congr fun features ↦ and_congr_right fun hv ↦ and_congr_right fun hne ↦ ?_
    rw [FeatureView.isolates_features_iff hv]
    simp [hne, and_comm]
  · obtain ⟨hid, hcount, hne, hsorted, features, hv, hmem⟩ :=
      Target.of_ofIndex_eq_indistinguishable h ((hids id count ids).1 he)
    have hpos : 1 ≤ count := hcount ▸ List.length_pos_iff.2 hne
    refine ⟨hid, hsorted, fun htarget ↦ ((hmem target).1 htarget).1 rfl, hcount, hpos,
      fun features' hv' ↦ ?_⟩
    obtain rfl := Option.some.inj (hv.symm.trans hv')
    exact hmem
  · intro features hv hempty halone
    have hi := (FeatureView.isolates_features_iff hv).2 ⟨hempty, halone⟩
    obtain ⟨t, hok⟩ := Target.exists_ofIndex_eq_ok h hv hi
    refine ⟨?_, ?_⟩
    · rcases h.search_cases hok .unlimited clock rfl with ⟨hcut, -⟩ | ⟨-, o, ho, -⟩
      · exact absurd hcut (Walk.not_isCut_unlimited _ _)
      · exact ⟨o, ho, h.fingerprints_ne_nil ho⟩
    · rcases h.search_cases hok budget clock rfl with ⟨-, -, hexhausted⟩ | ⟨-, o, ho, -⟩
      · exact Or.inr ⟨_, hexhausted⟩
      · exact Or.inl ⟨o, ho, h.fingerprints_ne_nil ho⟩

end Index

end MethodFingerprint
