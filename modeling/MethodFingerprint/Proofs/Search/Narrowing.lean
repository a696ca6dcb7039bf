import MethodFingerprint.Proofs.Feature.Extract
import MethodFingerprint.Proofs.Search.Failure

/-!
# Fewer categories, fewer fingerprints

To let fewer categories take part is to filter the answer. Narrower settings leave of every method
the features they admit (`Settings.restricts_featuresOf`), and that is a test of the feature alone.
Where a view is **restricted** in this way, a set of admitted features is carried by the same ids as
before, so it isolates what it isolated before, and its parts, being admitted too, do so as well.
The minimal fingerprints of the restricted view are therefore the admitted ones among those of the
whole view (`FeatureView.Restricts.isMinimal_iff`): no new ones appear, since leaving features out
can only make methods more alike.

Both lists are in the one order that fingerprints are listed in, so having the right members is
being the filtered list (`Index.allFingerprints_build_eq_filter`).
-/

namespace MethodFingerprint

/-! ### Restricted views -/

namespace FeatureView

/-- A view **restricts** another to the features with a property if it has the same ids and leaves
each of them its features with the property. -/
def Restricts (v' v : FeatureView) (p : Feature → Prop) : Prop :=
  ∀ id, Option.Rel (fun t' t : FeatureSet ↦ ∀ f, f ∈ t' ↔ f ∈ t ∧ p f) (v' id) (v id)

namespace Restricts

variable {v v' : FeatureView} {p : Feature → Prop} {id target : MethodId} {s : FeatureSet}

/-- **An id keeps the sets whose features have the property.** -/
theorem carries_iff (h : v'.Restricts v p) : v'.Carries s id ↔ v.Carries s id ∧ ∀ f ∈ s, p f := by
  have hid := h id
  unfold Carries
  generalize v' id = o', v id = o at hid
  cases hid with
  | none => simp
  | some hrel =>
    simp only [Option.some.injEq, exists_eq_left']
    constructor
    · intro hs
      exact ⟨fun f hf ↦ ((hrel f).1 (hs f hf)).1, fun f hf ↦ ((hrel f).1 (hs f hf)).2⟩
    · rintro ⟨hs, hp⟩ f hf
      exact (hrel f).2 ⟨hs f hf, hp f hf⟩

/-- **A set isolates a target as before** if its features have the property, and not at all if one
of them has not. -/
theorem isolates_iff (h : v'.Restricts v p) :
    v'.Isolates target s ↔ v.Isolates target s ∧ ∀ f ∈ s, p f := by
  constructor
  · intro hi
    have hp : ∀ f ∈ s, p f := (h.carries_iff.1 hi.carries).2
    refine ⟨⟨hi.1, fun id ↦ ?_⟩, hp⟩
    rw [← hi.2 id, h.carries_iff]
    exact (and_iff_left hp).symm
  · rintro ⟨hi, hp⟩
    refine ⟨hi.1, fun id ↦ ?_⟩
    rw [← hi.2 id, h.carries_iff]
    exact and_iff_left hp

/-- **The minimal fingerprints of the restricted view** are those of the whole view whose features
have the property. -/
theorem isMinimal_iff (h : v'.Restricts v p) :
    v'.IsMinimal target s ↔ v.IsMinimal target s ∧ ∀ f ∈ s, p f := by
  constructor
  · rintro ⟨hi, hmin⟩
    obtain ⟨hi, hp⟩ := h.isolates_iff.1 hi
    -- a part has the property because the whole has it
    exact ⟨⟨hi, fun r hr hri ↦ hmin r hr (h.isolates_iff.2 ⟨hri, fun f hf ↦ hp f (hr f hf)⟩)⟩, hp⟩
  · rintro ⟨⟨hi, hmin⟩, hp⟩
    exact ⟨h.isolates_iff.2 ⟨hi, hp⟩, fun r hr hri ↦ hmin r hr (h.isolates_iff.1 hri).1⟩

/-- Among the minimal fingerprints, those with the property are those the target still carries. -/
theorem isMinimal_iff_carries (h : v'.Restricts v p) :
    v'.IsMinimal target s ↔ v.IsMinimal target s ∧ v'.Carries s target := by
  rw [h.isMinimal_iff, h.carries_iff]
  exact and_congr_right fun hmin ↦ (and_iff_right hmin.1.carries).symm

end Restricts

end FeatureView

/-- **Narrower settings restrict the view of every corpus** to the tokens they admit. -/
theorem Settings.restricts_featuresOf {narrower wider : Settings} (h : narrower.Within wider)
    (methods : List Method) :
    (narrower.featuresOf methods).Restricts (wider.featuresOf methods) narrower.Admits := by
  intro id
  unfold Settings.featuresOf
  cases Method.last? methods id with
  | none => exact .none
  | some m => exact .some fun f ↦ Settings.mem_features_of_within h

/-! ### The answers -/

namespace Index

variable {narrower wider : Settings}

/-- **Narrower settings filter the list of fingerprints.** -/
theorem allFingerprints_build_eq_filter (h : narrower.Within wider) (methods : List Method)
    (target : MethodId) :
    (build methods narrower).allFingerprints target =
      ((build methods wider).allFingerprints target).filter fun s ↦
        (narrower.featuresOf methods).Carries s target := by
  have hnarrower := presents_build methods narrower
  have hwider := presents_build methods wider
  refine List.Pairwise.eq_of_mem_iff (hnarrower.pairwise_allFingerprints target)
    ((hwider.pairwise_allFingerprints target).filter _) fun s ↦ ?_
  rw [List.mem_filter, decide_eq_true_eq, hnarrower.mem_allFingerprints, hwider.mem_allFingerprints]
  exact (Settings.restricts_featuresOf h methods).isMinimal_iff_carries

/-- A search with an answer reports something. -/
theorem Presents.allFingerprints_ne_nil {x : Index} {v : FeatureView} (h : x.Presents v)
    {target : MethodId} {features : FeatureSet} (hi : v.Isolates target features) :
    x.allFingerprints target ≠ [] := by
  obtain ⟨s, -, hs⟩ := hi.exists_isMinimal
  exact List.ne_nil_of_mem (h.mem_allFingerprints.2 hs)

/-- **Disabling categories filters the result.** Of the fingerprints that are found under some
settings, narrower settings keep those that are drawn from the target under them, in the same order.
If any are kept, they are the complete answer; if none is, the search fails, with the error that the
features left to the target call for. -/
theorem minimalFingerprints_build_of_within (methods : List Method) (wider narrower : Settings)
    (h : narrower.Within wider) (target : MethodId) :
    let kept := ((build methods wider).allFingerprints target).filter fun s ↦
      (narrower.featuresOf methods).Carries s target
    (kept ≠ [] → ∃ o, (build methods narrower).minimalFingerprints target = .ok o ∧
      o.target = target ∧ o.complete = true ∧ o.fingerprints = kept) ∧
    (kept = [] →
      (narrower.featuresOf methods target = none →
        (build methods narrower).minimalFingerprints target = .error (.notFound target)) ∧
      (narrower.featuresOf methods target = some ∅ →
        (build methods narrower).minimalFingerprints target = .error (.noFeatures target)) ∧
      ∀ features, narrower.featuresOf methods target = some features → features ≠ ∅ →
        ∃ colliding, (build methods narrower).minimalFingerprints target =
          .error (.indistinguishable target colliding.length colliding)) := by
  intro kept
  have hpresents := presents_build methods narrower
  have hall : (build methods narrower).allFingerprints target = kept :=
    allFingerprints_build_eq_filter h methods target
  rcases hpresents.minimalFingerprints_cases target with ⟨hv, he⟩ | ⟨hv, he⟩ |
    ⟨features, hv, hne, -, colliding, he⟩ | ⟨features, hv, hi, o, ho, hcomplete, hanswers⟩
  · have hnil : kept = [] := by rw [← hall, allFingerprints, he]
    refine ⟨fun hkept ↦ absurd hnil hkept, fun _ ↦ ⟨fun _ ↦ he, ?_, ?_⟩⟩ <;> simp [hv]
  · have hnil : kept = [] := by rw [← hall, allFingerprints, he]
    refine ⟨fun hkept ↦ absurd hnil hkept, fun _ ↦ ⟨?_, fun _ ↦ he, ?_⟩⟩
    · simp [hv]
    · intro features hfeatures hne
      exact absurd (Option.some.inj (hfeatures.symm.trans hv)) hne
  · have hnil : kept = [] := by rw [← hall, allFingerprints, he]
    refine ⟨fun hkept ↦ absurd hnil hkept, fun _ ↦ ⟨?_, ?_, fun _ _ _ ↦ ⟨colliding, he⟩⟩⟩
    · simp [hv]
    · intro hempty
      exact absurd (Option.some.inj (hv.symm.trans hempty)) hne
  · have hok : o.fingerprints = kept := by rw [← hall, allFingerprints, ho]
    refine ⟨fun _ ↦ ⟨o, ho, hanswers.target_eq, hcomplete, hok⟩, fun hnil ↦ ?_⟩
    exact absurd (hall.trans hnil) (hpresents.allFingerprints_ne_nil hi)

/-- Two methods that differ in their return types and in a string. -/
def typedMethods : List Method :=
  [⟨"La;", "f", 1, "V", [], [], ["x"]⟩, ⟨"La;", "g", 1, "I", [], [], []⟩]

/-- Without the strings, the return type is what is left of the two fingerprints. -/
theorem minimalFingerprints_build_typedMethods :
    Settings.Within { useStrings := false } {} ∧
    ((build typedMethods {}).allFingerprints ⟨"La;f()V"⟩).filter (fun s ↦
      (Settings.featuresOf { useStrings := false } typedMethods).Carries s ⟨"La;f()V"⟩) ≠ [] ∧
    ∃ o, (build typedMethods { useStrings := false }).minimalFingerprints ⟨"La;f()V"⟩ = .ok o ∧
      o.target = ⟨"La;f()V"⟩ ∧ o.complete = true ∧
      o.fingerprints = ((build typedMethods {}).allFingerprints ⟨"La;f()V"⟩).filter fun s ↦
        (Settings.featuresOf { useStrings := false } typedMethods).Carries s ⟨"La;f()V"⟩ := by
  have hwithin : Settings.Within { useStrings := false } {} := by
    intro c _
    cases c <;> rfl
  have hisolates : (Settings.featuresOf {} typedMethods).Isolates ⟨"La;f()V"⟩
      (.ofList [.returnType "V"]) := by decide +kernel
  have hminimal := hisolates.isMinimal_of_size_le_one (by decide +kernel)
  have hkept : ((build typedMethods {}).allFingerprints ⟨"La;f()V"⟩).filter (fun s ↦
      (Settings.featuresOf { useStrings := false } typedMethods).Carries s ⟨"La;f()V"⟩) ≠ [] := by
    refine List.ne_nil_of_mem (a := .ofList [.returnType "V"]) (List.mem_filter.2 ⟨?_, ?_⟩)
    · exact (presents_build typedMethods {}).mem_allFingerprints.2 hminimal
    · decide +kernel
  exact ⟨hwithin, hkept, (minimalFingerprints_build_of_within typedMethods {}
    { useStrings := false } hwithin ⟨"La;f()V"⟩).1 hkept⟩

end Index

end MethodFingerprint
