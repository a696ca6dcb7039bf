import MethodFingerprint.Proofs.Index.Contents
import MethodFingerprint.Proofs.Isolation
import Mathlib.Combinatorics.Enumerative.DoubleCounting
import Mathlib.Data.Set.Function

/-!
# Indexes of renamed corpora

Two corpora whose methods have the same features, up to a renaming of the ids, are numbered by slots
in unrelated ways: the records may stand in another order, and ids that sort before others may sort
behind them after the renaming. What stays is which slots belong together: those of an id and of the
id it is renamed to (`Index.SameMethod`). The relation is one to one, and slots that it pairs have
the same features.

Lists of slots that such a relation **pairs** member by member, in whatever order (`Slots.Paired`),
are equally long, agree on whether the target is in them, and stay paired when they are merged.
Since the candidates of a list of features are paired (`Index.paired_candidatesOf`), no search can
tell the two indexes apart by counting or merging candidates or by looking for the target among
them, and no search does anything else with them.
-/

namespace MethodFingerprint

/-! ### Renamed views -/

namespace FeatureView

/-- A renaming of ids **renames** a view to another if it takes the ids of the one to those of the
other, one to one, and these have the same features. -/
structure Renames (φ : MethodId → MethodId) (v v' : FeatureView) : Prop where
  bijOn : Set.BijOn φ {id | v id ≠ none} {id | v' id ≠ none}
  features_eq : ∀ id, v id ≠ none → v' (φ id) = v id

variable {φ : MethodId → MethodId} {v v' : FeatureView} {id id' target : MethodId} {s : FeatureSet}

/-- **The renamed ids carry what the ids carry.** -/
theorem Renames.carries_iff (h : v.Renames φ v') (hid : v id ≠ none) :
    v'.Carries s (φ id) ↔ v.Carries s id := by
  unfold Carries
  rw [h.features_eq id hid]

/-- Whatever carries a set in the renamed view is a renamed id. -/
theorem Renames.exists_of_carries (h : v.Renames φ v') (hid : v'.Carries s id') :
    ∃ id, φ id = id' ∧ v.Carries s id := by
  obtain ⟨id, hne, rfl⟩ := h.bijOn.surjOn hid.ne_none
  exact ⟨id, rfl, (h.carries_iff hne).1 hid⟩

end FeatureView

/-! ### Paired lists of slots -/

namespace Slots

variable {R : Slot → Slot → Prop} {l l' m m' : List Slot} {s s' : Slot}

/-- Two ascending lists are **paired** by a relation if every slot of either list is related to one
of the other. -/
structure Paired (R : Slot → Slot → Prop) (l l' : List Slot) : Prop where
  ascending_left : l.Pairwise (· < ·)
  ascending_right : l'.Pairwise (· < ·)
  exists_right : ∀ s ∈ l, ∃ s' ∈ l', R s s'
  exists_left : ∀ s' ∈ l', ∃ s ∈ l, R s s'

namespace Paired

/-- Related slots are in both lists or in neither. -/
theorem mem_iff (h : Paired R l l') (hR : Relator.BiUnique R) (hs : R s s') : s ∈ l ↔ s' ∈ l' := by
  constructor
  · intro hmem
    obtain ⟨t', ht', hst⟩ := h.exists_right s hmem
    rwa [hR.2 hs hst]
  · intro hmem
    obtain ⟨t, ht, hst⟩ := h.exists_left s' hmem
    rwa [hR.1 hs hst]

theorem contains_eq (h : Paired R l l') (hR : Relator.BiUnique R) (hs : R s s') :
    l.contains s = l'.contains s' := by
  rw [Bool.eq_iff_iff, List.contains_iff_mem, List.contains_iff_mem]
  exact h.mem_iff hR hs

/-- **Paired lists are equally long**, since no slot has two partners. -/
theorem length_eq (h : Paired R l l') (hR : Relator.BiUnique R) : l.length = l'.length := by
  rw [← List.toFinset_card_of_nodup h.ascending_left.nodup,
    ← List.toFinset_card_of_nodup h.ascending_right.nodup]
  refine Nat.le_antisymm ?_ ?_
  · refine Finset.card_le_card_of_forall_subsingleton R (fun s hs ↦ ?_) ?_
    · obtain ⟨s', hs', hss⟩ := h.exists_right s (List.mem_toFinset.1 hs)
      exact ⟨s', List.mem_toFinset.2 hs', hss⟩
    · rintro s' - s ⟨-, hs⟩ t ⟨-, ht⟩
      exact hR.1 hs ht
  · refine Finset.card_le_card_of_forall_subsingleton' R (fun s' hs' ↦ ?_) ?_
    · obtain ⟨s, hs, hss⟩ := h.exists_left s' (List.mem_toFinset.1 hs')
      exact ⟨s, List.mem_toFinset.2 hs, hss⟩
    · rintro s - s' ⟨-, hs'⟩ t' ⟨-, ht'⟩
      exact hR.2 hs' ht'

/-- **Merging keeps lists paired.** -/
theorem intersect (h : Paired R l l') (hm : Paired R m m') (hR : Relator.BiUnique R) :
    Paired R (Slots.intersect l m) (Slots.intersect l' m') where
  ascending_left := ascending_intersect h.ascending_left
  ascending_right := ascending_intersect h.ascending_right
  exists_right s hs := by
    obtain ⟨hsl, hsm⟩ := (mem_intersect h.ascending_left hm.ascending_left).1 hs
    obtain ⟨s', hs', hss⟩ := h.exists_right s hsl
    refine ⟨s', (mem_intersect h.ascending_right hm.ascending_right).2 ⟨hs', ?_⟩, hss⟩
    exact (hm.mem_iff hR hss).1 hsm
  exists_left s' hs' := by
    obtain ⟨hsl, hsm⟩ := (mem_intersect h.ascending_right hm.ascending_right).1 hs'
    obtain ⟨s, hs, hss⟩ := h.exists_left s' hsl
    refine ⟨s, (mem_intersect h.ascending_left hm.ascending_left).2 ⟨hs, ?_⟩, hss⟩
    exact (hm.mem_iff hR hss).2 hsm

/-- **A list is left with one slot alone exactly if its partner is** left with the related one. -/
theorem eq_singleton_iff (h : Paired R l l') (hR : Relator.BiUnique R) (hs : R s s') :
    l = [s] ↔ l' = [s'] := by
  constructor
  · rintro rfl
    have hmem := (h.mem_iff hR hs).1 (List.mem_singleton_self s)
    obtain ⟨t', rfl⟩ := List.length_eq_one_iff.1 (h.length_eq hR).symm
    rw [List.mem_singleton.1 hmem]
  · rintro rfl
    have hmem := (h.mem_iff hR hs).2 (List.mem_singleton_self s')
    obtain ⟨t, rfl⟩ := List.length_eq_one_iff.1 (h.length_eq hR)
    rw [List.mem_singleton.1 hmem]

end Paired

/-- **No list has two partners**, on either side. -/
theorem biUnique_paired (hR : Relator.BiUnique R) : Relator.BiUnique (Paired R) := by
  constructor
  · intro l m l' hl hm
    refine ext hl.ascending_left hm.ascending_left fun s ↦ ⟨fun hs ↦ ?_, fun hs ↦ ?_⟩
    · obtain ⟨s', hs', hss⟩ := hl.exists_right s hs
      exact (hm.mem_iff hR hss).2 hs'
    · obtain ⟨s', hs', hss⟩ := hm.exists_right s hs
      exact (hl.mem_iff hR hss).2 hs'
  · intro l l' m' hl hm
    refine ext hl.ascending_right hm.ascending_right fun s' ↦ ⟨fun hs' ↦ ?_, fun hs' ↦ ?_⟩
    · obtain ⟨s, hs, hss⟩ := hl.exists_left s' hs'
      exact (hm.mem_iff hR hss).1 hs
    · obtain ⟨s, hs, hss⟩ := hm.exists_left s' hs'
      exact (hl.mem_iff hR hss).1 hs

end Slots

/-! ### The two indexes -/

namespace Index

/-- Slots of two indexes **belong to the same method** if the one is that of an id and the other
that of the id it is renamed to. -/
def SameMethod (φ : MethodId → MethodId) (x y : Index) (s s' : Slot) : Prop :=
  ∃ id, x.slots[id]? = some s ∧ y.slots[φ id]? = some s'

variable {φ : MethodId → MethodId} {x y : Index} {v v' : FeatureView} {id : MethodId}
  {s s' : Slot}

theorem Presents.ne_none_of_slots (hx : x.Presents v) (hid : x.slots[id]? = some s) :
    v id ≠ none := by
  intro hnone
  rw [hx.getElem?_slots_eq_none_iff.2 hnone] at hid
  cases hid

variable (hx : x.Presents v) (hy : y.Presents v') (hφ : v.Renames φ v')
include hx hy hφ

/-- **No slot belongs to two methods.** -/
theorem biUnique_sameMethod : Relator.BiUnique (SameMethod φ x y) := by
  constructor
  · rintro s t s' ⟨id, hs, hs'⟩ ⟨id', ht, ht'⟩
    have heq := hy.slots_inj hs' ht'
    obtain rfl := hφ.bijOn.injOn (hx.ne_none_of_slots hs) (hx.ne_none_of_slots ht) heq
    exact Option.some.inj (hs.symm.trans ht)
  · rintro s s' t' ⟨id, hs, hs'⟩ ⟨id', ht, ht'⟩
    obtain rfl := hx.slots_inj hs ht
    exact Option.some.inj (hs'.symm.trans ht')

/-- An id of a view and the id it is renamed to have slots of the same method. -/
theorem exists_sameMethod (hid : x.slots[id]? = some s) :
    ∃ s', y.slots[φ id]? = some s' ∧ SameMethod φ x y s s' := by
  have hne : v' (φ id) ≠ none := hφ.bijOn.mapsTo (hx.ne_none_of_slots hid)
  obtain ⟨s', hs'⟩ := Option.ne_none_iff_exists'.1 (mt hy.getElem?_slots_eq_none_iff.1 hne)
  exact ⟨s', hs', id, hid, hs'⟩

/-- **Slots of the same method have the same features.** -/
theorem SameMethod.featuresAt_eq (h : SameMethod φ x y s s') :
    y.featuresAt s' = x.featuresAt s := by
  obtain ⟨id, hs, hs'⟩ := h
  rw [hy.featuresAt_eq_iff hs', hφ.features_eq id (hx.ne_none_of_slots hs)]
  exact (hx.featuresAt_eq_iff hs).1 rfl

/-- **The candidates of features are paired.** -/
theorem paired_candidatesOf (fs : List Feature) :
    Slots.Paired (SameMethod φ x y) (x.candidatesOf fs) (y.candidatesOf fs) where
  ascending_left := hx.ascending_candidatesOf fs
  ascending_right := hy.ascending_candidatesOf fs
  exists_right s hs := by
    obtain ⟨id, t, hid, ht, hfs⟩ := hx.mem_candidatesOf_iff.1 hs
    obtain ⟨s', hs', hsame⟩ := exists_sameMethod hx hy hφ hid
    refine ⟨s', hy.mem_candidatesOf_iff.2 ⟨φ id, t, hs', ?_, hfs⟩, hsame⟩
    rw [hφ.features_eq id (hx.ne_none_of_slots hid), ht]
  exists_left s' hs' := by
    obtain ⟨id', t, hid', ht, hfs⟩ := hy.mem_candidatesOf_iff.1 hs'
    obtain ⟨id, hne, rfl⟩ := hφ.bijOn.surjOn (hy.ne_none_of_slots hid')
    obtain ⟨s, hs⟩ := Option.ne_none_iff_exists'.1 (mt hx.getElem?_slots_eq_none_iff.1 hne)
    refine ⟨s, hx.mem_candidatesOf_iff.2 ⟨id, t, hs, ?_, hfs⟩, id, hs, hid'⟩
    rw [← hφ.features_eq id hne, ht]

/-- The candidates of a feature are paired. -/
theorem paired_candidates (f : Feature) :
    Slots.Paired (SameMethod φ x y) (x.candidates f) (y.candidates f) :=
  paired_candidatesOf hx hy hφ [f]

/-- The slots of the two indexes are paired. -/
theorem paired_range :
    Slots.Paired (SameMethod φ x y) (List.range x.size) (List.range y.size) :=
  paired_candidatesOf hx hy hφ []

end Index

end MethodFingerprint
