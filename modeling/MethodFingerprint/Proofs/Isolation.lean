import MethodFingerprint.Proofs.Feature.Order
import MethodFingerprint.Proofs.Index

/-!
# Isolating sets of features

What a search looks for, said without a search. A set of features **isolates** a target in a view of
a corpus if it is not empty and the target is the only id that has all of it; it is a **minimal
fingerprint** if, moreover, no proper part of it isolates the target. Both are statements about the
features of the ids and nothing else.

Among the sets that the target has, isolation goes upwards (`Isolates.mono`): a larger set can only
be shared by fewer. So every isolating set has a minimal part (`Isolates.exists_isMinimal`).

In a corpus isolation is decidable, as only the ids that occur in it have to be gone through
(`Settings.isolates_featuresOf_iff`).

`Index.Presents.isolates_iff` is the test that the searches make: the candidates of an isolating set
are the slot of the target and no other.
-/

namespace MethodFingerprint

/-! ### Inclusion of sets -/

namespace FeatureSet

variable {r s t : FeatureSet}

instance : HasSubset FeatureSet := ⟨fun s t ↦ ∀ f ∈ s, f ∈ t⟩

theorem subset_def : s ⊆ t ↔ ∀ f ∈ s, f ∈ t := Iff.rfl

/-- **Sets with the same members are the same set.** -/
theorem ext (h : ∀ f, f ∈ s ↔ f ∈ t) : s = t := by
  have hlist : s.toList = t.toList := List.Pairwise.eq_of_mem_iff s.ascending t.ascending h
  cases s
  cases t
  cases hlist
  rfl

theorem subset_refl (s : FeatureSet) : s ⊆ s := fun _ h ↦ h

theorem subset_trans (h : r ⊆ s) (h' : s ⊆ t) : r ⊆ t := fun f hf ↦ h' f (h f hf)

theorem subset_antisymm (h : s ⊆ t) (h' : t ⊆ s) : s = t :=
  ext fun f ↦ ⟨h f, h' f⟩

/-- A part that is not smaller is the whole. -/
theorem eq_of_subset_of_size_le (h : s ⊆ t) (hsize : t.size ≤ s.size) : s = t := by
  have hsub : s.toList.Subperm t.toList := List.subperm_of_subset s.nodup h
  have hperm := hsub.perm_of_length_le hsize
  exact ext fun f ↦ hperm.mem_iff

/-- A proper part is smaller. -/
theorem size_lt_of_subset_of_ne (h : s ⊆ t) (hne : s ≠ t) : s.size < t.size :=
  Nat.lt_of_not_le fun hle ↦ hne (eq_of_subset_of_size_le h hle)

theorem ofList_eq_empty_iff {l : List Feature} : ofList l = ∅ ↔ l = [] := by
  constructor
  · intro h
    refine List.eq_nil_iff_forall_not_mem.2 fun f hf ↦ ?_
    have := mem_ofList.2 hf
    rw [h, mem_def, toList_empty] at this
    exact List.not_mem_nil this
  · rintro rfl
    rfl

/-- A set is no larger than its list is long. -/
theorem size_ofList_le (l : List Feature) : (ofList l).size ≤ l.length :=
  (List.subperm_of_subset (nodup _) fun _ ↦ mem_ofList.1).length_le

/-- The set of different features is as large as their list is long. -/
theorem size_ofList_of_nodup {l : List Feature} (h : l.Nodup) : (ofList l).size = l.length :=
  ((List.perm_ext_iff_of_nodup (nodup _) h).2 fun _ ↦ mem_ofList).length_eq

/-- A set is that of its list. -/
@[simp] theorem ofList_toList (s : FeatureSet) : ofList s.toList = s :=
  ext fun _ ↦ mem_ofList

@[simp] theorem toList_singleton (f : Feature) : (ofList [f]).toList = [f] := by
  obtain ⟨g, hg⟩ := List.length_eq_one_iff.1 (size_ofList_of_nodup (List.nodup_singleton f))
  have hmem : f ∈ (ofList [f]).toList := mem_ofList.2 List.mem_cons_self
  rw [hg, List.mem_singleton] at hmem
  rw [hg, hmem]

end FeatureSet

/-! ### Isolation -/

namespace FeatureView

/-- An id has all features of a set. -/
def Carries (v : FeatureView) (s : FeatureSet) (id : MethodId) : Prop :=
  ∃ t, v id = some t ∧ s ⊆ t

/-- **A set isolates a target** if it is not empty and the target alone has all of it. -/
def Isolates (v : FeatureView) (target : MethodId) (s : FeatureSet) : Prop :=
  s ≠ ∅ ∧ ∀ id, v.Carries s id ↔ id = target

/-- **A minimal fingerprint**: it isolates the target, and no proper part of it does. -/
def IsMinimal (v : FeatureView) (target : MethodId) (s : FeatureSet) : Prop :=
  v.Isolates target s ∧ ∀ r, r ⊆ s → v.Isolates target r → r = s

variable {v : FeatureView} {target : MethodId} {r s : FeatureSet}

theorem Carries.ne_none {id : MethodId} (h : v.Carries s id) : v id ≠ none := by
  obtain ⟨t, ht, -⟩ := h
  rw [ht]
  exact Option.some_ne_none t

theorem Carries.mono {id : MethodId} (h : v.Carries s id) (hr : r ⊆ s) : v.Carries r id :=
  let ⟨t, ht, hs⟩ := h
  ⟨t, ht, FeatureSet.subset_trans hr hs⟩

theorem Isolates.carries (h : v.Isolates target s) : v.Carries s target :=
  (h.2 target).2 rfl

/-- **A larger set that the target has isolates it too.** -/
theorem Isolates.mono (h : v.Isolates target r) (hr : r ⊆ s) (hs : v.Carries s target) :
    v.Isolates target s := by
  refine ⟨?_, fun id ↦ ⟨fun hid ↦ (h.2 id).1 (hid.mono hr), ?_⟩⟩
  · rintro rfl
    exact h.1 (FeatureSet.subset_antisymm hr fun f hf ↦ absurd hf List.not_mem_nil)
  · rintro rfl
    exact hs

/-- **Every isolating set has a minimal part**, by induction on its size. -/
theorem Isolates.exists_isMinimal (h : v.Isolates target s) :
    ∃ r, r ⊆ s ∧ v.IsMinimal target r := by
  induction hn : s.size using Nat.strong_induction_on generalizing s with
  | _ n ih =>
    by_cases hmin : v.IsMinimal target s
    · exact ⟨s, FeatureSet.subset_refl s, hmin⟩
    · -- a proper part isolates the target as well, and it is smaller
      have hnot : ¬∀ r, r ⊆ s → v.Isolates target r → r = s := fun h' ↦ hmin ⟨h, h'⟩
      simp only [not_forall] at hnot
      obtain ⟨r, hr, hri, hne⟩ := hnot
      obtain ⟨q, hq, hqmin⟩ :=
        ih r.size (hn ▸ FeatureSet.size_lt_of_subset_of_ne hr hne) hri rfl
      exact ⟨q, FeatureSet.subset_trans hq hr, hqmin⟩

theorem Isolates.size_pos (h : v.Isolates target s) : 0 < s.size := by
  refine List.length_pos_iff.2 fun hnil ↦ h.1 ?_
  rw [← FeatureSet.ofList_toList s, hnil]
  rfl

/-- **A single isolating feature is minimal**, as the empty set isolates nothing. -/
theorem Isolates.isMinimal_of_size_le_one (h : v.Isolates target s) (hsize : s.size ≤ 1) :
    v.IsMinimal target s :=
  ⟨h, fun _ hr hi ↦ FeatureSet.eq_of_subset_of_size_le hr (hsize.trans hi.size_pos)⟩

instance (v : FeatureView) (s : FeatureSet) (id : MethodId) : Decidable (v.Carries s id) :=
  decidable_of_iff (∃ t ∈ v id, ∀ f ∈ s.toList, t.contains f = true) <|
    exists_congr fun _ ↦ and_congr_right fun _ ↦ forall₂_congr fun _ _ ↦ FeatureSet.contains_iff

end FeatureView

/-! ### Isolation in a corpus -/

namespace Settings

variable {settings : Settings} {methods : List Method} {target : MethodId} {s : FeatureSet}

/-- The ids of a corpus are those that have features there. -/
theorem featuresOf_ne_none_iff {id : MethodId} :
    settings.featuresOf methods id ≠ none ↔ ∃ m ∈ methods, m.id = id := by
  unfold featuresOf Method.last?
  rw [Ne, Option.map_eq_none_iff, List.getLast?_eq_none_iff, List.filter_eq_nil_iff]
  simp

theorem featuresOf_eq_none_iff {id : MethodId} :
    settings.featuresOf methods id = none ↔ ∀ m ∈ methods, m.id ≠ id := by
  rw [← not_iff_not, ← Ne, featuresOf_ne_none_iff]
  simp

/-- Only an id that occurs in a corpus has features there. -/
theorem exists_of_carries_featuresOf {id : MethodId}
    (h : (settings.featuresOf methods).Carries s id) : ∃ m ∈ methods, m.id = id :=
  featuresOf_ne_none_iff.1 h.ne_none

/-- **Isolation in a corpus is a test of its records.** -/
theorem isolates_featuresOf_iff : (settings.featuresOf methods).Isolates target s ↔
    s ≠ ∅ ∧ (settings.featuresOf methods).Carries s target ∧
      ∀ m ∈ methods, (settings.featuresOf methods).Carries s m.id → m.id = target := by
  refine and_congr_right fun _ ↦ ⟨fun h ↦ ⟨(h target).2 rfl, fun m _ ↦ (h m.id).1⟩, ?_⟩
  rintro ⟨htarget, hall⟩ id
  constructor
  · intro hid
    obtain ⟨m, hm, rfl⟩ := exists_of_carries_featuresOf hid
    exact hall m hm hid
  · rintro rfl
    exact htarget

instance : Decidable ((settings.featuresOf methods).Isolates target s) :=
  decidable_of_iff _ isolates_featuresOf_iff.symm

end Settings

/-! ### The test an index makes -/

namespace Index

variable {x : Index} {v : FeatureView} {target : MethodId} {slot : Slot} {fs fs' : List Feature}

/-- Order and repetitions of the features do not count. -/
theorem Coherent.candidatesOf_congr (h : x.Coherent) (hfs : ∀ f, f ∈ fs ↔ f ∈ fs') :
    x.candidatesOf fs = x.candidatesOf fs' := by
  refine Slots.ext (h.ascending_candidatesOf fs) (h.ascending_candidatesOf fs') fun s ↦ ?_
  rw [h.mem_candidatesOf, h.mem_candidatesOf]
  exact and_congr_right fun _ ↦ forall_congr' fun f ↦ imp_congr_left (hfs f)

/-- **The features of a nonempty list isolate a target exactly if its slot is their only
candidate.** -/
theorem Presents.isolates_iff (h : x.Presents v) (hslot : x.slots[target]? = some slot) :
    v.Isolates target (.ofList fs) ↔ fs ≠ [] ∧ x.candidatesOf fs = [slot] := by
  have hcarries (id : MethodId) : v.Carries (.ofList fs) id ↔
      ∃ s, x.slots[id]? = some s ∧ s ∈ x.candidatesOf fs := by
    rw [← h.forall_mem_iff]
    simp only [FeatureView.Carries, FeatureSet.subset_def, FeatureSet.mem_ofList]
  refine and_congr (not_congr FeatureSet.ofList_eq_empty_iff) ?_
  rw [Slots.eq_singleton_iff (h.ascending_candidatesOf fs)]
  constructor
  · intro hids s
    constructor
    · intro hs
      obtain ⟨id, hid⟩ := h.exists_id (h.mem_candidatesOf.1 hs).1
      obtain rfl := (hids id).1 ((hcarries id).2 ⟨s, hid, hs⟩)
      exact Option.some.inj (hid.symm.trans hslot)
    · rintro rfl
      obtain ⟨s', hs', hmem⟩ := (hcarries target).1 ((hids target).2 rfl)
      rwa [Option.some.inj (hslot.symm.trans hs')]
  · intro hslots id
    rw [hcarries]
    constructor
    · rintro ⟨s, hid, hs⟩
      obtain rfl := (hslots s).1 hs
      exact h.slots_inj hid hslot
    · rintro rfl
      exact ⟨slot, hslot, (hslots slot).2 rfl⟩

end Index

end MethodFingerprint
