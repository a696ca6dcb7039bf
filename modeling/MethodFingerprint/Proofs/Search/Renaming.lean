import MethodFingerprint.Proofs.Index.Renaming
import MethodFingerprint.Proofs.Search.Failure
import MethodFingerprint.Proofs.Search.Greedy

/-!
# Searches of renamed corpora

A search depends on nothing but the features of the methods. If a corpus has the same features as
another one under other ids, both searches give the same answers for a method and for the method it
is renamed to, with the ids in them renamed: the same fingerprints after the same amount of work, or
the same error (`Index.Presents.search_rename`, `Index.Presents.greedyFingerprint_rename`).

The proof runs the two searches in lockstep. Features are ranked alike, since ranks go by the length
of posting lists and by token (`Target.forall₂_rank`). From there on, everything a search keeps is
**paired** with what the other one keeps: ranked features with features of the same rank and paired
posting lists, branches and walks component by component. One step of a walk keeps it paired
(`Walk.Paired.step`), and so does a run, however it is cut (`Walk.Paired.run`). The cover and the
thinning out of the greedy search are followed in the same way.
-/

namespace MethodFingerprint

/-! ### Renamed answers -/

namespace SearchError

/-- An error with its ids renamed. The ids in the way are listed in ascending order again. -/
def rename (φ : MethodId → MethodId) : SearchError → SearchError
  | notFound target => notFound (φ target)
  | noFeatures target => noFeatures (φ target)
  | indistinguishable target count colliding =>
    indistinguishable (φ target) count ((colliding.map φ).mergeSort fun a b ↦ !decide (b < a))
  | exhausted target branches => exhausted (φ target) branches

end SearchError

/-- An outcome with its target renamed. Nothing else in it is an id. -/
def Outcome.rename (φ : MethodId → MethodId) (o : Outcome) : Outcome :=
  { o with target := φ o.target }

/-! ### Paired features, branches and walks -/

/-- Ranked features are paired if they are the same feature at the same rank and the methods that
carry them are paired. -/
structure Ranked.Paired (R : Slot → Slot → Prop) (r r' : Ranked) : Prop where
  rank_eq : r.rank = r'.rank
  feature_eq : r.feature = r'.feature
  postings : Slots.Paired R r.postings r'.postings

/-- Branches are paired if their members, their candidates and the features left to extend them
with are. -/
structure Branch.Paired (R : Slot → Slot → Prop) (b b' : Branch) : Prop where
  members : List.Forall₂ (Ranked.Paired R) b.members b'.members
  candidates : Slots.Paired R b.candidates b'.candidates
  later : List.Forall₂ (Ranked.Paired R) b.later b'.later

/-- Walks are paired if they have paired branches and hits at the same places and have taken the
same work. -/
structure Walk.Paired (R : Slot → Slot → Prop) (w w' : Walk) : Prop where
  frontier : List.Forall₂ (Branch.Paired R) w.frontier.toList w'.frontier.toList
  current : Option.Rel (Branch.Paired R) w.current w'.current
  seen_eq : w.seen = w'.seen
  hits : List.Forall₂ (List.Forall₂ (Ranked.Paired R)) w.hits w'.hits
  branches_eq : w.branches = w'.branches
  depth_eq : w.depth = w'.depth
  frontierPeak_eq : w.frontierPeak = w'.frontierPeak

variable {R : Slot → Slot → Prop} {slot slot' : Slot}

/-- What two members of paired lists agree on, the lists agree on. -/
theorem map_eq_of_forall₂ {α β γ : Type} {P : α → β → Prop} {f : α → γ} {g : β → γ} {l : List α}
    {l' : List β} (h : List.Forall₂ P l l') (hfg : ∀ a b, P a b → f a = g b) :
    l.map f = l'.map g := by
  induction h with
  | nil => rfl
  | cons hab _ ih => rw [List.map_cons, List.map_cons, hfg _ _ hab, ih]

theorem Ranked.map_rank_eq {c c' : List Ranked} (h : List.Forall₂ (Ranked.Paired R) c c') :
    c.map Ranked.rank = c'.map Ranked.rank :=
  map_eq_of_forall₂ h fun _ _ hr ↦ hr.rank_eq

theorem Ranked.map_feature_eq {c c' : List Ranked} (h : List.Forall₂ (Ranked.Paired R) c c') :
    c.map Ranked.feature = c'.map Ranked.feature :=
  map_eq_of_forall₂ h fun _ _ hr ↦ hr.feature_eq

/-- **No feature has two partners**, on either side. -/
theorem Ranked.biUnique_paired (hR : Relator.BiUnique R) : Relator.BiUnique (Ranked.Paired R) := by
  have hslots := Slots.biUnique_paired hR
  constructor
  · intro r s r' hr hs
    have hpostings := hslots.1 hr.postings hs.postings
    cases r
    cases s
    rw [Ranked.mk.injEq]
    exact ⟨hr.rank_eq.trans hs.rank_eq.symm, hr.feature_eq.trans hs.feature_eq.symm, hpostings⟩
  · intro r r' s' hr hs
    have hpostings := hslots.2 hr.postings hs.postings
    cases r'
    cases s'
    rw [Ranked.mk.injEq]
    exact ⟨hr.rank_eq.symm.trans hs.rank_eq, hr.feature_eq.symm.trans hs.feature_eq, hpostings⟩

/-! ### The walk -/

/-- **Queues with paired values are popped alike.** -/
theorem Frontier.rel_pop? {α : Type} {P : α → α → Prop} {q q' : Frontier α}
    (h : List.Forall₂ P q.toList q'.toList) :
    Option.Rel (fun p p' ↦ P p.1 p'.1 ∧ List.Forall₂ P p.2.toList p'.2.toList) q.pop? q'.pop? := by
  cases hp : q.pop? with
  | none =>
    rw [pop?_eq_none_iff.1 hp, List.forall₂_nil_left_iff] at h
    rw [pop?_eq_none_iff.2 h]
    exact .none
  | some p =>
    rw [toList_of_pop? hp] at h
    cases hp' : q'.pop? with
    | none =>
      rw [pop?_eq_none_iff.1 hp'] at h
      cases h
    | some p' =>
      rw [toList_of_pop? hp', List.forall₂_cons] at h
      exact .some h

namespace Walk

namespace Paired

variable {w w' : Walk} {b b' : Branch} {r r' : Ranked} {later later' : List Ranked}

theorem size_frontier_eq (h : Paired R w w') : w.frontier.size = w'.frontier.size := by
  rw [Frontier.size_eq_length, Frontier.size_eq_length, h.frontier.length_eq]

/-- **Paired branches are filed alike.** -/
theorem file (h : Paired R w w') (hR : Relator.BiUnique R) (hb : Branch.Paired R b b') :
    Paired R (w.file b) (w'.file b') := by
  unfold Walk.file
  rw [hb.candidates.length_eq hR]
  split
  · exact { h with hits := .cons hb.members h.hits }
  · refine { h with frontier := ?_ }
    rw [Frontier.toList_push, Frontier.toList_push]
    exact List.rel_append h.frontier (.cons hb .nil)

/-- Paired features are seeded alike. -/
theorem seed (h : Paired R w w') (hR : Relator.BiUnique R) (hslot : R slot slot')
    {ranked ranked' : List Ranked} (hranked : List.Forall₂ (Ranked.Paired R) ranked ranked') :
    Paired R (w.seed slot ranked) (w'.seed slot' ranked') := by
  induction hranked generalizing w w' with
  | nil => exact h
  | @cons r r' later later' hr hlater ih =>
    rw [Walk.seed, Walk.seed, hr.postings.contains_eq hR hslot]
    split
    · refine ih (file ?_ hR ⟨.cons hr .nil, hr.postings, hlater⟩)
      exact { h with seen_eq := by rw [h.seen_eq, hr.rank_eq] }
    · exact ih h

/-- **Paired extensions are evaluated alike**: both are left out, or both are kept. -/
theorem extend (h : Paired R w w') (hR : Relator.BiUnique R) (hslot : R slot slot')
    (hb : Branch.Paired R b b') (hr : Ranked.Paired R r r')
    (hlater : List.Forall₂ (Ranked.Paired R) later later') :
    Paired R (w.extend slot b r later) (w'.extend slot' b' r' later') := by
  have hcount : Paired R { w with branches := w.branches + 1 }
      { w' with branches := w'.branches + 1 } := { h with branches_eq := by rw [h.branches_eq] }
  have hnarrowed := hb.candidates.intersect hr.postings hR
  have hmembers : List.Forall₂ (Ranked.Paired R) (b.members ++ [r]) (b'.members ++ [r']) :=
    List.rel_append hb.members (.cons hr .nil)
  have hranks := Ranked.map_rank_eq hmembers
  have hseen : w.seen.contains ((b.members ++ [r]).map Ranked.rank) =
      w'.seen.contains ((b'.members ++ [r']).map Ranked.rank) := by
    rw [hranks, h.seen_eq]
  unfold Walk.extend
  dsimp only
  rw [hnarrowed.contains_eq hR hslot, hnarrowed.length_eq hR, hb.candidates.length_eq hR, hseen]
  split
  · exact hcount
  · split
    · exact hcount
    · split
      · exact hcount
      · refine file ?_ hR ⟨hmembers, hnarrowed, hlater⟩
        exact { hcount with
          seen_eq := by rw [hranks, h.seen_eq]
          depth_eq := by rw [h.depth_eq, hmembers.length_eq] }

/-- **Paired walks take the same step.** -/
theorem step (h : Paired R w w') (hR : Relator.BiUnique R) (hslot : R slot slot') :
    Option.Rel (Paired R) (w.step slot) (w'.step slot') := by
  have hcurrent := h.current
  unfold Walk.step
  cases hc : w.current with
  | none =>
    rw [hc] at hcurrent
    cases hc' : w'.current with
    | some b' =>
      rw [hc'] at hcurrent
      cases hcurrent
    | none =>
      have hpop := Frontier.rel_pop? h.frontier
      generalize w.frontier.pop? = o, w'.frontier.pop? = o' at hpop
      cases hpop with
      | none => exact .none
      | some hp => exact .some { h with frontier := hp.2, current := .some hp.1 }
  | some b =>
    rw [hc] at hcurrent
    cases hc' : w'.current with
    | none =>
      rw [hc'] at hcurrent
      cases hcurrent
    | some b' =>
      rw [hc'] at hcurrent
      cases hcurrent with
      | some hb =>
        dsimp only
        have hlater := hb.later
        generalize hl : b.later = l, hl' : b'.later = l' at hlater
        cases hlater with
        | nil =>
          refine .some { h with current := .none, frontierPeak_eq := ?_ }
          rw [h.frontierPeak_eq, h.size_frontier_eq]
        | cons hr hrest =>
          refine .some (extend ?_ hR hslot hb hr hrest)
          exact { h with current := .some { hb with later := hrest } }

/-- Paired walks are at an extension at the same time. -/
theorem isExtending_eq (h : Paired R w w') : w.isExtending = w'.isExtending := by
  unfold isExtending
  have hcurrent := h.current
  generalize w.current = o, w'.current = o' at hcurrent
  cases hcurrent with
  | none => rfl
  | some hb =>
    have hlater := hb.later
    rw [Option.any_some, Option.any_some]
    rename_i b b'
    generalize b.later = l, b'.later = l' at hlater
    cases hlater <;> rfl

/-- **Paired walks run alike** within budgets that are exhausted after the same number of
extensions, by induction on the steps of one of them. -/
theorem run (h : Paired R w w') (hR : Relator.BiUnique R) (hslot : R slot slot')
    {budget : Budget} {clock clock' : Clock}
    (hbudget : ∀ n, budget.isExhausted clock n = budget.isExhausted clock' n) :
    Paired R (w.run budget clock slot).1 (w'.run budget clock' slot').1 ∧
      (w.run budget clock slot).2 = (w'.run budget clock' slot').2 := by
  have hcut {w w' : Walk} (h : Paired R w w') : w.IsCut budget clock ↔ w'.IsCut budget clock' := by
    unfold IsCut
    rw [h.isExtending_eq, h.branches_eq, hbudget]
  fun_induction Walk.run budget clock slot w generalizing w' with
  | case1 w hstop =>
    rw [run_eq_of_isCut ((hcut h).1 (Bool.and_eq_true_iff.1 hstop))]
    exact ⟨h, rfl⟩
  | case2 w hgo hstep =>
    have hgo' : ¬w'.IsCut budget clock' := mt (hcut h).2 (mt Bool.and_eq_true_iff.2 hgo)
    have hnext := h.step hR hslot
    rw [hstep] at hnext
    generalize hstep' : w'.step slot' = o' at hnext
    cases hnext with
    | none =>
      rw [run_eq_of_step_eq_none hgo' hstep']
      exact ⟨h, rfl⟩
  | case3 w hgo w₁ hstep ih =>
    have hgo' : ¬w'.IsCut budget clock' := mt (hcut h).2 (mt Bool.and_eq_true_iff.2 hgo)
    have hnext := h.step hR hslot
    rw [hstep] at hnext
    generalize hstep' : w'.step slot' = o' at hnext
    cases hnext with
    | some hpaired =>
      rw [run_eq_of_step_eq_some hgo' hstep']
      exact ih hpaired

/-- Paired walks have found the same sets. -/
theorem found_eq (h : Paired R w w') : w.found = w'.found := by
  unfold found
  rw [map_eq_of_forall₂ h.hits fun c c' hc ↦ congrArg FeatureSet.ofList (Ranked.map_feature_eq hc)]

/-- **Paired walks are concluded alike.** -/
theorem conclude_eq (h : Paired R w w') (φ : MethodId → MethodId) (target : MethodId)
    (complete : Bool) : w'.conclude (φ target) complete =
      ((w.conclude target complete).map (Outcome.rename φ)).mapError (SearchError.rename φ) := by
  have hstats : w.stats = w'.stats := by
    rw [stats, stats, h.branches_eq, h.depth_eq, h.frontierPeak_eq]
  unfold conclude
  rw [h.found_eq, h.branches_eq, hstats]
  dsimp only
  split
  · rfl
  · rfl

end Paired

end Walk

/-! ### The targets -/

namespace Target

open Index

variable {φ : MethodId → MethodId} {x y : Index} {v v' : FeatureView} {target : MethodId}
  {s s' : Slot}

/-- Ranking compares features, and each feature with the number of methods that carry it. -/
theorem rank_eq (x : Index) (features : FeatureSet) :
    rank x features = (features.toList.mergeSort fun f g ↦
      rarerFirst (f, x.candidates f) (g, x.candidates g)).zipIdx.map
        fun p ↦ ⟨p.2, p.1, x.candidates p.1⟩ := by
  have hsort := List.map_mergeSort (l := features.toList) (f := fun f ↦ (f, x.candidates f))
    (r := fun f g ↦ rarerFirst (f, x.candidates f) (g, x.candidates g)) (s := rarerFirst)
    fun _ _ _ _ ↦ rfl
  rw [rank, ← hsort, List.zipIdx_map, List.map_map]
  rfl

variable (hx : x.Presents v) (hy : y.Presents v') (hφ : v.Renames φ v')
include hx hy hφ

/-- **The features of a method are ranked alike** under both names. -/
theorem forall₂_rank (features : FeatureSet) :
    List.Forall₂ (Ranked.Paired (SameMethod φ x y)) (rank x features) (rank y features) := by
  have hR := biUnique_sameMethod hx hy hφ
  have hrarer (f g : Feature) : rarerFirst (f, x.candidates f) (g, x.candidates g) =
      rarerFirst (f, y.candidates f) (g, y.candidates g) := by
    unfold rarerFirst
    rw [(paired_candidates hx hy hφ f).length_eq hR, (paired_candidates hx hy hφ g).length_eq hR]
  rw [rank_eq, rank_eq]
  simp only [hrarer]
  rw [List.forall₂_map_left_iff, List.forall₂_map_right_iff, List.forall₂_same]
  exact fun p _ ↦ ⟨rfl, rfl, paired_candidates hx hy hφ p.1⟩

/-- **The methods in the way are the renamed ones.** -/
theorem colliding_rename (hs : x.slots[target]? = some s) (hs' : y.slots[φ target]? = some s')
    (fs : List Feature) :
    colliding y s' (y.candidatesOf fs) =
      ((colliding x s (x.candidatesOf fs)).map φ).mergeSort fun a b ↦ !decide (b < a) := by
  have hne : v target ≠ none := hx.ne_none_of_slots hs
  have hcarried {id : MethodId} (hid : id ∈ colliding x s (x.candidatesOf fs)) : v id ≠ none :=
    ((mem_colliding hx hs).1 hid).2.ne_none
  have hnodup : ((colliding x s (x.candidatesOf fs)).map φ).Nodup :=
    (pairwise_colliding hx.toCoherent s fs).nodup.map_on fun id hid id' hid' heq ↦
      hφ.bijOn.injOn (hcarried hid) (hcarried hid') heq
  refine List.Pairwise.eq_of_mem_iff (pairwise_colliding hy.toCoherent s' fs)
    (pairwise_lt_mergeSort hnodup) fun id' ↦ ?_
  rw [List.mem_mergeSort, List.mem_map, mem_colliding hy hs']
  constructor
  · rintro ⟨hne', hcarries⟩
    obtain ⟨id, rfl, hid⟩ := hφ.exists_of_carries hcarries
    refine ⟨id, (mem_colliding hx hs).2 ⟨?_, hid⟩, rfl⟩
    rintro rfl
    exact hne' rfl
  · rintro ⟨id, hid, rfl⟩
    obtain ⟨hother, hcarries⟩ := (mem_colliding hx hs).1 hid
    refine ⟨fun heq ↦ hother ?_, (hφ.carries_iff hcarries.ne_none).2 hcarries⟩
    exact hφ.bijOn.injOn hcarries.ne_none hne heq

/-- **The checks come out alike**, with the renamed error or with paired features. -/
theorem ofIndex_rename (htarget : v' (φ target) ≠ none → v target ≠ none) :
    (∃ e, ofIndex x target = .error e ∧ ofIndex y (φ target) = .error (e.rename φ)) ∨
    (∃ t t', ofIndex x target = .ok t ∧ ofIndex y (φ target) = .ok t' ∧
      SameMethod φ x y t.slot t'.slot ∧
      List.Forall₂ (Ranked.Paired (SameMethod φ x y)) t.ranked t'.ranked) := by
  cases hs : x.slots[target]? with
  | none =>
    have hnone : v target = none := hx.getElem?_slots_eq_none_iff.1 hs
    have hs' : y.slots[φ target]? = none :=
      hy.getElem?_slots_eq_none_iff.2 (by_contra fun h ↦ htarget h hnone)
    refine Or.inl ⟨.notFound target, ?_, ?_⟩
    · rw [ofIndex, Index.slot, hs]
    · rw [ofIndex, Index.slot, hs']
      rfl
  | some slot =>
    obtain ⟨slot', hs', hsame⟩ := exists_sameMethod hx hy hφ hs
    have hfeatures := hsame.featuresAt_eq hx hy hφ
    have halone := (paired_candidatesOf hx hy hφ (x.featuresAt slot).toList).eq_singleton_iff
      (biUnique_sameMethod hx hy hφ) hsame
    simp only [ofIndex, Index.slot, hs, hs', hfeatures]
    by_cases hempty : (x.featuresAt slot).isEmpty = true
    · refine Or.inl ⟨.noFeatures target, ?_, ?_⟩
      · rw [if_pos hempty]
      · rw [if_pos hempty]
        rfl
    · rw [if_neg hempty, if_neg hempty]
      by_cases hrem : x.candidatesOf (x.featuresAt slot).toList = [slot]
      · rw [if_pos hrem, if_pos (halone.1 hrem)]
        exact Or.inr ⟨_, _, rfl, rfl, hsame, forall₂_rank hx hy hφ _⟩
      · rw [if_neg hrem, if_neg (mt halone.2 hrem)]
        refine Or.inl ⟨_, rfl, ?_⟩
        rw [colliding_rename hx hy hφ hs hs', List.length_mergeSort, List.length_map]
        rfl

end Target

/-! ### The exhaustive search -/

namespace Index

variable {φ : MethodId → MethodId} {x y : Index} {v v' : FeatureView} {target : MethodId}

/-- **The exhaustive search of a renamed corpus gives the renamed answer**, within budgets that are
exhausted after the same number of extensions. -/
theorem Presents.search_rename (hx : x.Presents v) (hy : y.Presents v') (hφ : v.Renames φ v')
    (htarget : v' (φ target) ≠ none → v target ≠ none) {budget : Budget} {clock clock' : Clock}
    (hbudget : ∀ n, budget.isExhausted clock n = budget.isExhausted clock' n) :
    y.search budget clock' (φ target) =
      ((x.search budget clock target).map (Outcome.rename φ)).mapError (SearchError.rename φ) := by
  rcases Target.ofIndex_rename hx hy hφ htarget with ⟨e, he, he'⟩ | ⟨t, t', ht, ht', hslot, hranked⟩
  · rw [search_eq_error he, search_eq_error he']
    rfl
  · have hR := biUnique_sameMethod hx hy hφ
    have hempty : Walk.Paired (SameMethod φ x y) Walk.empty Walk.empty :=
      ⟨.nil, .none, rfl, .nil, rfl, rfl, rfl⟩
    have hseed := hempty.seed hR hslot hranked
    have hstart : Walk.Paired (SameMethod φ x y) (Walk.start t) (Walk.start t') :=
      { hseed with frontierPeak_eq := hseed.size_frontier_eq }
    obtain ⟨hrun, hcomplete⟩ := hstart.run hR hslot hbudget
    rw [search_eq_conclude ht, search_eq_conclude ht', hrun.conclude_eq φ, hcomplete]

end Index

/-! ### The greedy search -/

namespace Greedy

variable {unpicked unpicked' picked picked' kept kept' : List Ranked}
  {remaining remaining' : List Slot} {r r' : Ranked}

/-- **Paired features leave the fewest candidates at the same place.** -/
theorem rel_best? (hR : Relator.BiUnique R) (hrem : Slots.Paired R remaining remaining')
    (h : List.Forall₂ (Ranked.Paired R) unpicked unpicked') :
    Option.Rel (fun p p' ↦ Ranked.Paired R p.1 p'.1 ∧ Slots.Paired R p.2 p'.2)
      (best? remaining unpicked) (best? remaining' unpicked') := by
  induction h with
  | nil => exact .none
  | @cons r r' rest rest' hr _ ih =>
    have hnarrowed := hrem.intersect hr.postings hR
    rw [best?, best?]
    generalize best? remaining rest = o, best? remaining' rest' = o' at ih
    cases ih with
    | none => exact .some ⟨hr, hnarrowed⟩
    | @some p p' hp =>
      obtain ⟨s, narrowed⟩ := p
      obtain ⟨s', narrowed'⟩ := p'
      dsimp only
      rw [hp.2.length_eq hR, hnarrowed.length_eq hR]
      split
      · exact .some hp
      · exact .some ⟨hr, hnarrowed⟩

/-- Erasing paired features keeps lists paired. -/
theorem forall₂_erase (hR : Relator.BiUnique R) (hr : Ranked.Paired R r r')
    (h : List.Forall₂ (Ranked.Paired R) unpicked unpicked') :
    List.Forall₂ (Ranked.Paired R) (unpicked.erase r) (unpicked'.erase r') := by
  induction h with
  | nil => exact .nil
  | @cons s s' rest rest' hs hrest ih =>
    have hiff : s = r ↔ s' = r' := Relator.rel_eq (Ranked.biUnique_paired hR) hs hr
    rw [List.erase_cons, List.erase_cons]
    by_cases heq : s = r
    · rwa [if_pos (beq_iff_eq.2 heq), if_pos (beq_iff_eq.2 (hiff.1 heq))]
    · rw [if_neg (mt beq_iff_eq.1 heq), if_neg (mt beq_iff_eq.1 (mt hiff.2 heq))]
      exact .cons hs ih

/-- **Paired features are taken alike**, by induction on what one of the covers takes. -/
theorem cover_rename (hR : Relator.BiUnique R)
    (hunpicked : List.Forall₂ (Ranked.Paired R) unpicked unpicked')
    (hpicked : List.Forall₂ (Ranked.Paired R) picked picked')
    (hrem : Slots.Paired R remaining remaining') :
    List.Forall₂ (Ranked.Paired R) (cover unpicked picked remaining).1
      (cover unpicked' picked' remaining').1 := by
  have hempty {c c' : List Ranked} (h : List.Forall₂ (Ranked.Paired R) c c') :
      c.isEmpty = c'.isEmpty := by
    cases h <;> rfl
  fun_induction cover unpicked picked remaining generalizing unpicked' picked' remaining' with
  | case1 unpicked picked remaining hstop =>
    rw [hrem.length_eq hR, hempty hpicked] at hstop
    rw [cover.eq_def unpicked', if_pos hstop]
    exact hpicked
  | case2 unpicked picked remaining hgo hbest =>
    rw [hrem.length_eq hR, hempty hpicked] at hgo
    have hrel := rel_best? hR hrem hunpicked
    generalize hbest' : best? remaining' unpicked' = o' at hrel
    rw [hbest] at hrel
    cases hrel with
    | none =>
      rw [cover_of_best?_eq_none hgo hbest']
      exact hpicked
  | case3 unpicked picked remaining hgo r narrowed hbest hstop =>
    rw [hrem.length_eq hR, hempty hpicked] at hgo
    have hrel := rel_best? hR hrem hunpicked
    generalize hbest' : best? remaining' unpicked' = o' at hrel
    rw [hbest] at hrel
    cases hrel with
    | some hp =>
      rw [hrem.length_eq hR, hp.2.length_eq hR, hempty hpicked] at hstop
      rw [cover_of_best?_eq_some hgo hbest', if_pos hstop]
      exact hpicked
  | case4 unpicked picked remaining hgo r narrowed hbest hnarrows ih =>
    rw [hrem.length_eq hR, hempty hpicked] at hgo
    have hrel := rel_best? hR hrem hunpicked
    generalize hbest' : best? remaining' unpicked' = o' at hrel
    rw [hbest] at hrel
    cases hrel with
    | some hp =>
      rw [hrem.length_eq hR, hp.2.length_eq hR, hempty hpicked] at hnarrows
      rw [cover_of_best?_eq_some hgo hbest', if_neg hnarrows]
      exact ih (forall₂_erase hR hp.1 hunpicked) (.cons hp.1 hpicked) hp.2

/-- **Paired features are spared alike.** -/
theorem spare_rename {φ : MethodId → MethodId} {x y : Index} {v v' : FeatureView}
    (hx : x.Presents v) (hy : y.Presents v') (hφ : v.Renames φ v')
    (hslot : Index.SameMethod φ x y slot slot')
    (hkept : List.Forall₂ (Ranked.Paired (Index.SameMethod φ x y)) kept kept')
    (hr : Ranked.Paired (Index.SameMethod φ x y) r r') :
    List.Forall₂ (Ranked.Paired (Index.SameMethod φ x y)) (spare x slot kept r)
      (spare y slot' kept' r') := by
  have htrial : List.Forall₂ (Ranked.Paired (Index.SameMethod φ x y))
      (kept.filter (·.rank ≠ r.rank)) (kept'.filter (·.rank ≠ r'.rank)) := by
    refine List.rel_filter (fun s s' hs ↦ ?_) hkept
    show decide (s.rank ≠ r.rank) = true ↔ decide (s'.rank ≠ r'.rank) = true
    rw [hs.rank_eq, hr.rank_eq]
  have halone := (Index.paired_candidatesOf hx hy hφ
    ((kept.filter (·.rank ≠ r.rank)).map Ranked.feature)).eq_singleton_iff
      (Index.biUnique_sameMethod hx hy hφ) hslot
  rw [Ranked.map_feature_eq htrial] at halone
  unfold spare
  rw [hkept.length_eq]
  dsimp only
  split
  · exact hkept
  · rw [Ranked.map_feature_eq htrial]
    by_cases hrem : x.candidatesOf ((kept'.filter (·.rank ≠ r'.rank)).map Ranked.feature) = [slot]
    · rw [if_pos hrem, if_pos (halone.1 hrem)]
      exact htrial
    · rw [if_neg hrem, if_neg (mt halone.2 hrem)]
      exact hkept

end Greedy

namespace Index

variable {φ : MethodId → MethodId} {x y : Index} {v v' : FeatureView} {target : MethodId}

/-- **The greedy search of a renamed corpus gives the renamed answer.** -/
theorem Presents.greedyFingerprint_rename (hx : x.Presents v) (hy : y.Presents v')
    (hφ : v.Renames φ v') (htarget : v' (φ target) ≠ none → v target ≠ none) :
    y.greedyFingerprint (φ target) =
      (x.greedyFingerprint target).mapError (SearchError.rename φ) := by
  rcases Target.ofIndex_rename hx hy hφ htarget with ⟨e, he, he'⟩ | ⟨t, t', ht, ht', hslot, hranked⟩
  · simp only [greedyFingerprint, he, he']
    rfl
  · have hR := biUnique_sameMethod hx hy hφ
    have hcover := Greedy.cover_rename hR hranked .nil (paired_range hx hy hφ)
    have hkept := List.rel_foldl (R := Ranked.Paired (SameMethod φ x y))
      (fun _ _ hkept _ _ hr ↦ Greedy.spare_rename hx hy hφ hslot hkept hr)
      (List.rel_reverse hcover) hcover
    -- either cover leaves its target alone
    have halone := (hx.greedyFingerprint_spec ht).1
    have halone' := (hy.greedyFingerprint_spec ht').1
    simp only [greedyFingerprint, ht, ht', halone, halone', if_true]
    rw [Ranked.map_feature_eq hkept]
    rfl

/-- **Searches depend on nothing but the features of the methods.** If a renaming of ids takes those
of one corpus to those of another, one to one, and the last record of every id has the same features
as the last record of the id it is renamed to, both searches of the other corpus give the renamed
answers: the same fingerprints, found with the same work, or the renamed error. A target that does
not occur is renamed to one that does not occur, and no time limit is set. -/
theorem search_build_rename (φ : MethodId → MethodId) (methods methods' : List Method)
    (settings settings' : Settings)
    (hbij : Set.BijOn φ {id | ∃ m ∈ methods, m.id = id} {id | ∃ m ∈ methods', m.id = id})
    (hfeatures : ∀ m ∈ methods,
      settings'.featuresOf methods' (φ m.id) = settings.featuresOf methods m.id)
    (target : MethodId)
    (htarget : (∃ m ∈ methods', m.id = φ target) → ∃ m ∈ methods, m.id = target)
    (maxBranches : Option Nat) (clock clock' : Clock) :
    (build methods' settings').search ⟨maxBranches, none⟩ clock' (φ target) =
        (((build methods settings).search ⟨maxBranches, none⟩ clock target).map
          (Outcome.rename φ)).mapError (SearchError.rename φ) ∧
      (build methods' settings').greedyFingerprint (φ target) =
        ((build methods settings).greedyFingerprint target).mapError (SearchError.rename φ) := by
  have hx := presents_build methods settings
  have hy := presents_build methods' settings'
  have hφ : (settings.featuresOf methods).Renames φ (settings'.featuresOf methods') := by
    constructor
    · simpa only [Settings.featuresOf_ne_none_iff] using hbij
    · intro id hid
      obtain ⟨m, hm, rfl⟩ := Settings.featuresOf_ne_none_iff.1 hid
      exact hfeatures m hm
  have htarget' : settings'.featuresOf methods' (φ target) ≠ none →
      settings.featuresOf methods target ≠ none := by
    simpa only [Settings.featuresOf_ne_none_iff] using htarget
  constructor
  · -- without a time limit the readings of the clocks do not count
    exact hx.search_rename hy hφ htarget' fun _ ↦ rfl
  · exact hx.greedyFingerprint_rename hy hφ htarget'

/-- The methods of `twoMethods` recorded in the other order, once each, with other names and other
opcodes. -/
def renamedMethods : List Method :=
  [⟨"Lb;", "q", 1, "V", [], ["nop"], ["x"]⟩, ⟨"Lb;", "p", 1, "V", [], [], ["y", "x"]⟩]

/-- The ids of `renamedMethods` for those of `twoMethods`. -/
def renameTwo (id : MethodId) : MethodId :=
  if id = ⟨"La;f()V"⟩ then ⟨"Lb;p()V"⟩ else ⟨"Lb;q()V"⟩

/-- The case of two methods and a limit of one extension. -/
theorem search_build_renamedMethods :
    (build renamedMethods {}).search ⟨some 1, none⟩ .still (renameTwo ⟨"La;f()V"⟩) =
        (((build twoMethods {}).search ⟨some 1, none⟩ .still ⟨"La;f()V"⟩).map
          (Outcome.rename renameTwo)).mapError (SearchError.rename renameTwo) ∧
      (build renamedMethods {}).greedyFingerprint (renameTwo ⟨"La;f()V"⟩) =
        ((build twoMethods {}).greedyFingerprint ⟨"La;f()V"⟩).mapError
          (SearchError.rename renameTwo) := by
  have hmaps : ∀ m ∈ twoMethods, ∃ m' ∈ renamedMethods, m'.id = renameTwo m.id := by
    decide +kernel
  have hinj : ∀ m ∈ twoMethods, ∀ m' ∈ twoMethods, renameTwo m.id = renameTwo m'.id →
      m.id = m'.id := by
    decide +kernel
  have hsurj : ∀ m' ∈ renamedMethods, ∃ m ∈ twoMethods, renameTwo m.id = m'.id := by
    decide +kernel
  have hbij : Set.BijOn renameTwo {id | ∃ m ∈ twoMethods, m.id = id}
      {id | ∃ m ∈ renamedMethods, m.id = id} := by
    refine ⟨?_, ?_, ?_⟩
    · rintro _ ⟨m, hm, rfl⟩
      exact hmaps m hm
    · rintro _ ⟨m, hm, rfl⟩ _ ⟨m', hm', rfl⟩ heq
      exact hinj m hm m' hm' heq
    · rintro _ ⟨m', hm', rfl⟩
      obtain ⟨m, hm, heq⟩ := hsurj m' hm'
      exact ⟨m.id, ⟨m, hm, rfl⟩, heq⟩
  exact search_build_rename renameTwo twoMethods renamedMethods {} {} hbij (by decide +kernel)
    ⟨"La;f()V"⟩ (fun _ ↦ by decide +kernel) (some 1) .still .still

end Index

end MethodFingerprint
