import MethodFingerprint.Proofs.Search.Failure

/-!
# More methods, larger fingerprints

A corpus grows by records of new methods. The methods it had keep their features, so the view of the
grown corpus **extends** the view of the old one (`Settings.extends_featuresOf_append`), and all
that can happen to a set of features is that new ids carry it as well. For a method that was there
before:

* what isolates it in the grown corpus isolated it before (`FeatureView.Extends.isolates_iff`), so a
  search that succeeds would have succeeded earlier, with parts of what it finds now;
* a minimal fingerprint stays one exactly if no new id carries it
  (`FeatureView.Extends.isMinimal_iff`). It cannot stop being minimal in any other way, since a part
  of it that isolated the method now would have done so before.
-/

namespace MethodFingerprint

/-! ### Extended views -/

namespace FeatureView

/-- A view **extends** another if it gives every id of the other the same features. -/
def Extends (v' v : FeatureView) : Prop :=
  ∀ id s, v id = some s → v' id = some s

namespace Extends

variable {v v' : FeatureView} {id target : MethodId} {s : FeatureSet}

/-- An id that was known before carries the same sets. -/
theorem carries_iff (h : v'.Extends v) (hid : v id ≠ none) : v'.Carries s id ↔ v.Carries s id := by
  obtain ⟨t, ht⟩ := Option.ne_none_iff_exists'.1 hid
  simp only [Carries, ht, h id t ht]

/-- **A set isolates a known id as before** if no new id carries it, and not at all if one does. -/
theorem isolates_iff (h : v'.Extends v) (htarget : v target ≠ none) :
    v'.Isolates target s ↔ v.Isolates target s ∧ ∀ id, v id = none → ¬v'.Carries s id := by
  constructor
  · rintro ⟨hne, hi⟩
    refine ⟨⟨hne, fun id ↦ ⟨fun hid ↦ ?_, ?_⟩⟩, ?_⟩
    · exact (hi id).1 ((h.carries_iff hid.ne_none).2 hid)
    · rintro rfl
      exact (h.carries_iff htarget).1 ((hi id).2 rfl)
    · intro id hnew hid
      rw [(hi id).1 hid] at hnew
      exact htarget hnew
  · rintro ⟨⟨hne, hi⟩, hnone⟩
    refine ⟨hne, fun id ↦ ?_⟩
    by_cases hid : v id = none
    · refine iff_of_false (hnone id hid) ?_
      rintro rfl
      exact htarget hid
    · rw [h.carries_iff hid, hi id]

/-- **What is minimal now has a part that was minimal before.** -/
theorem exists_isMinimal (h : v'.Extends v) (htarget : v target ≠ none)
    (hs : v'.IsMinimal target s) : ∃ r, r ⊆ s ∧ v.IsMinimal target r :=
  ((h.isolates_iff htarget).1 hs.1).1.exists_isMinimal

/-- **What was minimal stays so** exactly if no new id carries it. -/
theorem isMinimal_iff (h : v'.Extends v) (hs : v.IsMinimal target s) :
    v'.IsMinimal target s ↔ ∀ id, v id = none → ¬v'.Carries s id := by
  have htarget : v target ≠ none := hs.1.carries.ne_none
  constructor
  · intro hs'
    exact ((h.isolates_iff htarget).1 hs'.1).2
  · intro hnone
    refine ⟨(h.isolates_iff htarget).2 ⟨hs.1, hnone⟩, fun r hr hi ↦ ?_⟩
    -- a part that isolates the target now did so before
    exact hs.2 r hr ((h.isolates_iff htarget).1 hi).1

end Extends

end FeatureView

/-! ### Grown corpora -/

variable {methods added : List Method}

/-- The last record of an id is looked for among the later records first. -/
theorem Method.last?_append (methods added : List Method) (id : MethodId) :
    last? (methods ++ added) id = (last? added id).or (last? methods id) := by
  rw [last?, last?, last?, List.filter_append, List.getLast?_append]

namespace Settings

variable {settings : Settings} {id : MethodId}

/-- An id of which nothing is added keeps its features. -/
theorem featuresOf_append_of_eq_none (h : settings.featuresOf added id = none) :
    settings.featuresOf (methods ++ added) id = settings.featuresOf methods id := by
  rw [featuresOf, Option.map_eq_none_iff] at h
  rw [featuresOf, Method.last?_append, h, Option.none_or]
  rfl

/-- An id that was not known has the features that are added. -/
theorem featuresOf_append_of_new (h : settings.featuresOf methods id = none) :
    settings.featuresOf (methods ++ added) id = settings.featuresOf added id := by
  rw [featuresOf, Option.map_eq_none_iff] at h
  rw [featuresOf, Method.last?_append, h, Option.or_none]
  rfl

/-- **Records of new methods extend the view of a corpus.** -/
theorem extends_featuresOf_append (settings : Settings)
    (hnew : ∀ m ∈ added, ∀ m' ∈ methods, m.id ≠ m'.id) :
    (settings.featuresOf (methods ++ added)).Extends (settings.featuresOf methods) := by
  intro id s hs
  rw [featuresOf_append_of_eq_none, hs]
  have hknown : settings.featuresOf methods id ≠ none := hs ▸ Option.some_ne_none s
  obtain ⟨m', hm', rfl⟩ := featuresOf_ne_none_iff.1 hknown
  exact featuresOf_eq_none_iff.2 fun m hm ↦ hnew m hm m' hm'

/-- The new ids that carry a set are those of the added records that do. -/
theorem forall_new_iff (settings : Settings) (hnew : ∀ m ∈ added, ∀ m' ∈ methods, m.id ≠ m'.id)
    {s : FeatureSet} :
    (∀ id, settings.featuresOf methods id = none →
        ¬(settings.featuresOf (methods ++ added)).Carries s id) ↔
      ∀ id, ¬(settings.featuresOf added).Carries s id := by
  constructor
  · intro hall id hid
    obtain ⟨m, hm, rfl⟩ := exists_of_carries_featuresOf hid
    have hunknown : settings.featuresOf methods m.id = none :=
      featuresOf_eq_none_iff.2 fun m' hm' ↦ (hnew m hm m' hm').symm
    refine hall m.id hunknown ?_
    rwa [FeatureView.Carries, featuresOf_append_of_new hunknown]
  · intro hall id hunknown hid
    rw [FeatureView.Carries, featuresOf_append_of_new hunknown] at hid
    exact hall id hid

end Settings

/-! ### The answers -/

namespace Index

/-- **Growth of a corpus.** Records of new methods are added to a corpus. If a method of it can
still be told apart, it could before, and every fingerprint that is found now contains one that was
found then. Of those, the ones that are found again are those that none of the new methods carries.
-/
theorem minimalFingerprints_build_append (methods added : List Method) (settings : Settings)
    (target : MethodId) (htarget : ∃ m ∈ methods, m.id = target)
    (hnew : ∀ m ∈ added, ∀ m' ∈ methods, m.id ≠ m'.id) :
    (∀ grown, (build (methods ++ added) settings).minimalFingerprints target = .ok grown →
      ∃ o, (build methods settings).minimalFingerprints target = .ok o ∧
        ∀ s ∈ grown.fingerprints, ∃ r ∈ o.fingerprints, r ⊆ s) ∧
    ∀ o, (build methods settings).minimalFingerprints target = .ok o → ∀ s ∈ o.fingerprints,
      ((∃ grown, (build (methods ++ added) settings).minimalFingerprints target = .ok grown ∧
          s ∈ grown.fingerprints) ↔
        ∀ id, ¬(settings.featuresOf added).Carries s id) := by
  have h := presents_build methods settings
  have hgrown := presents_build (methods ++ added) settings
  have hextends := Settings.extends_featuresOf_append settings hnew
  have hknown : settings.featuresOf methods target ≠ none :=
    Settings.featuresOf_ne_none_iff.2 htarget
  -- a minimal fingerprint of the grown corpus has a part that is found without the new records
  have hpart {s : FeatureSet}
      (hs : (settings.featuresOf (methods ++ added)).IsMinimal target s) :
      ∃ o, (build methods settings).minimalFingerprints target = .ok o ∧
        ∃ r ∈ o.fingerprints, r ⊆ s := by
    obtain ⟨r, hr, hmin⟩ := hextends.exists_isMinimal hknown hs
    obtain ⟨o, ho, hmem⟩ := h.exists_minimalFingerprints_iff.2 hmin
    exact ⟨o, ho, r, hmem, hr⟩
  constructor
  · intro grown hok
    have hmin (s : FeatureSet) (hs : s ∈ grown.fingerprints) :=
      hgrown.exists_minimalFingerprints_iff.1 ⟨grown, hok, hs⟩
    obtain ⟨s, hs⟩ := List.exists_mem_of_ne_nil _ (hgrown.fingerprints_ne_nil hok)
    obtain ⟨o, ho, -⟩ := hpart (hmin s hs)
    refine ⟨o, ho, fun s hs ↦ ?_⟩
    obtain ⟨o', ho', hr⟩ := hpart (hmin s hs)
    rwa [Except.ok.inj (ho.symm.trans ho')]
  · intro o ho s hs
    have hmin := h.exists_minimalFingerprints_iff.1 ⟨o, ho, hs⟩
    rw [hgrown.exists_minimalFingerprints_iff, hextends.isMinimal_iff hmin,
      Settings.forall_new_iff settings hnew]

/-- Two methods, told apart by their return types and by a string of either. -/
def growingMethods : List Method :=
  [⟨"La;", "f", 1, "V", [], [], ["x"]⟩, ⟨"La;", "g", 1, "I", [], [], []⟩,
    ⟨"La;", "g", 1, "I", [], [], ["z"]⟩]

/-- Two records of a third method. It has the return type of the first method in both and the string
of it in the overwritten one only. -/
def addedMethods : List Method :=
  [⟨"La;", "h", 1, "V", [], [], ["x"]⟩, ⟨"La;", "h", 1, "V", [], [], ["y"]⟩]

/-- The third method takes the return type away and leaves the string. -/
theorem minimalFingerprints_build_growingMethods :
    (∃ m ∈ growingMethods, m.id = ⟨"La;f()V"⟩) ∧
    (∀ m ∈ addedMethods, ∀ m' ∈ growingMethods, m.id ≠ m'.id) ∧
    (∀ grown, (build (growingMethods ++ addedMethods) {}).minimalFingerprints ⟨"La;f()V"⟩ =
        .ok grown →
      ∃ o, (build growingMethods {}).minimalFingerprints ⟨"La;f()V"⟩ = .ok o ∧
        ∀ s ∈ grown.fingerprints, ∃ r ∈ o.fingerprints, r ⊆ s) ∧
    ∀ o, (build growingMethods {}).minimalFingerprints ⟨"La;f()V"⟩ = .ok o →
      ∀ s ∈ o.fingerprints,
        ((∃ grown, (build (growingMethods ++ addedMethods) {}).minimalFingerprints ⟨"La;f()V"⟩ =
              .ok grown ∧ s ∈ grown.fingerprints) ↔
          ∀ id, ¬(Settings.featuresOf {} addedMethods).Carries s id) := by
  have htarget : ∃ m ∈ growingMethods, m.id = ⟨"La;f()V"⟩ := by decide +kernel
  have hnew : ∀ m ∈ addedMethods, ∀ m' ∈ growingMethods, m.id ≠ m'.id := by decide +kernel
  exact ⟨htarget, hnew,
    minimalFingerprints_build_append growingMethods addedMethods {} ⟨"La;f()V"⟩ htarget hnew⟩

end Index

end MethodFingerprint
