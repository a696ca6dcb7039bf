import MethodFingerprint.Proofs.Search.Limit
import Mathlib.Algebra.GroupWithZero.Nat

/-!
# How far a search can go

A target with `n` features has `2 ^ n - n - 1` combinations of at least two of them, and no search
evaluates more extensions than that. The bound is a potential from which every step pays: a pending
branch with `k` features left can be extended in `2 ^ k - 1` ways, and evaluating one of them
divides the others between the branch and its extension (`Walk.branches_add_ahead_step`). It does
not matter for this which extensions are kept. The steps are bounded in the same way, by the weight
that makes the walk end (`Walk.length_states_start_lt`).

Depth is bounded from two sides (`Walk.Sized`). Members are features of the target, of which there
are `n`. And an extension is kept only if it narrows its branch down, so that every member but the
first costs a candidate: members and candidates together are at most one more than the methods of
the index. As the target stays a candidate, there are no more members than methods.
-/

namespace MethodFingerprint

namespace Walk

variable {slot : Slot} {w w' : Walk} {t : Target} {b : Branch} {r : Ranked} {later : List Ranked}
  {size : Nat}

/-! ### How many extensions there are -/

/-- The extensions that branches can lead to: with any of the features they have left. -/
def ahead (bs : List Branch) : Nat := (bs.map fun b ↦ 2 ^ b.later.length - 1).sum

theorem ahead_cons (b : Branch) (bs : List Branch) :
    ahead (b :: bs) = 2 ^ b.later.length - 1 + ahead bs := by
  rw [ahead, List.map_cons, List.sum_cons, ahead]

theorem ahead_pending_file_le (w : Walk) (b : Branch) :
    ahead (w.file b).pending ≤ ahead w.pending + (2 ^ b.later.length - 1) := by
  rw [pending_file]
  split
  · exact Nat.le_add_right _ _
  · rw [ahead, List.map_append, List.sum_append, List.map_singleton, List.sum_singleton, ahead]

/-- **Every extension is paid for by what is ahead.** -/
theorem branches_add_ahead_step (h : w.step slot = some w') :
    w'.branches + ahead w'.pending ≤ w.branches + ahead w.pending := by
  rcases step_cases h with ⟨b, rest, hcur, hpop, rfl⟩ | ⟨b, hcur, -, rfl⟩ |
    ⟨b, r, later, hcur, hb, rfl⟩
  · -- the branch taken stays pending
    rw [pending_of_current_eq_none hcur, hpop]
    exact Nat.le_refl _
  · rw [pending_of_current hcur, ahead_cons]
    exact Nat.add_le_add_left (Nat.le_add_left _ _) _
  · have hahead : ahead w.pending = 2 ^ (later.length + 1) - 1 + ahead w.frontier.toList := by
      rw [pending_of_current hcur, ahead_cons, hb, List.length_cons]
    have hskip : ahead ({ w with current := some { b with later } } : Walk).pending =
        2 ^ later.length - 1 + ahead w.frontier.toList := by
      rw [pending_of_current rfl, ahead_cons]
    have hpos := Nat.one_le_two_pow (n := later.length)
    have hpow := Nat.pow_succ (n := 2) (m := later.length)
    rw [branches_extend]
    rcases extend_cases slot { w with current := some { b with later } } b r later with
      ⟨heq, -⟩ | ⟨heq, -⟩
    · rw [heq]
      show w.branches + 1 + ahead ({ w with current := some { b with later } } : Walk).pending ≤ _
      omega
    · rw [heq, keep]
      refine Nat.le_trans (Nat.add_le_add_left (ahead_pending_file_le _ _) _) ?_
      show w.branches + 1 + (ahead ({ w with current := some { b with later } } : Walk).pending +
        (2 ^ later.length - 1)) ≤ _
      omega

/-- Seeding with `n` features leads to the combinations of at least two of them. -/
theorem ahead_seed_le (slot : Slot) (w : Walk) (features : List Ranked) :
    ahead (w.seed slot features).pending ≤
      ahead w.pending + (2 ^ features.length - features.length - 1) := by
  induction features generalizing w with
  | nil => exact Nat.le_add_right _ _
  | cons r later ih =>
    have hlt := Nat.lt_two_pow_self (n := later.length)
    have hpow := Nat.pow_succ (n := 2) (m := later.length)
    rw [seed, List.length_cons]
    split
    · have hfile : ahead ({ w with seen := w.seen.insert [r.rank] }.file
          ⟨[r], r.postings, later⟩).pending ≤ ahead w.pending + (2 ^ later.length - 1) :=
        ahead_pending_file_le _ _
      refine (ih _).trans ?_
      omega
    · refine (ih w).trans ?_
      omega

/-- **No walk evaluates more extensions than there are combinations of at least two features.** -/
theorem branches_le_of_reaches (h : Reaches t.slot (start t) w) :
    w.branches ≤ 2 ^ t.ranked.length - t.ranked.length - 1 := by
  have hstart : (start t).branches + ahead (start t).pending ≤
      2 ^ t.ranked.length - t.ranked.length - 1 := by
    rw [branches_start, Nat.zero_add]
    refine (ahead_seed_le t.slot empty t.ranked).trans ?_
    exact Nat.le_of_eq (Nat.zero_add _)
  have hsum := h.preserves
    (p := fun u ↦ u.branches + ahead u.pending ≤ 2 ^ t.ranked.length - t.ranked.length - 1)
    (fun _ _ hs hu ↦ (branches_add_ahead_step hs).trans hu) hstart
  exact Nat.le_trans (Nat.le_add_right _ _) hsum

/-! ### How many steps there are -/

theorem stepBound_add_one (k : Nat) : stepBound k + 1 = 3 * 2 ^ k := by
  induction k with
  | zero => rfl
  | succ k ih =>
    rw [stepBound, Nat.pow_succ]
    omega

theorem weight_seed_le (slot : Slot) (w : Walk) (features : List Ranked) :
    (w.seed slot features).weight + features.length + 3 ≤
      w.weight + 3 * 2 ^ features.length := by
  induction features generalizing w with
  | nil => exact Nat.le_refl _
  | cons r later ih =>
    have hbound := stepBound_add_one later.length
    have hpow := Nat.pow_succ (n := 2) (m := later.length)
    have hpos := Nat.one_le_two_pow (n := later.length)
    rw [seed, List.length_cons]
    split
    · have hfile : ({ w with seen := w.seen.insert [r.rank] }.file
          ⟨[r], r.postings, later⟩).weight ≤ w.weight + stepBound later.length :=
        weight_file_le _ _
      have hlater := ih ({ w with seen := w.seen.insert [r.rank] }.file ⟨[r], r.postings, later⟩)
      omega
    · have hlater := ih w
      omega

/-- **A run passes through fewer than `3 * 2 ^ n` states**, whatever its budget. -/
theorem length_states_start_lt (budget : Budget) (clock : Clock) (t : Target) :
    ((start t).states budget clock t.slot).length < 3 * 2 ^ t.ranked.length := by
  have hstates := length_states_le budget clock t.slot (start t)
  have hseed := weight_seed_le t.slot empty t.ranked
  have hstart : (start t).weight = (empty.seed t.slot t.ranked).weight := rfl
  have hempty : empty.weight = 0 := rfl
  omega

/-! ### How deep a walk goes -/

/-- The sizes in a walk for a target among so many methods. -/
structure Sized (t : Target) (size : Nat) (w : Walk) : Prop where
  one_le_depth : 1 ≤ w.depth
  depth_le : w.depth ≤ min t.ranked.length size
  hits_le : ∀ c ∈ w.hits, c.length ≤ w.depth
  /-- Every member but the first costs a candidate. -/
  room : ∀ b ∈ w.pending, b.members.length + b.candidates.length ≤ size + 1

theorem depth_file (w : Walk) (b : Branch) : (w.file b).depth = w.depth := by
  rw [file]
  split <;> rfl

theorem depth_keep (w : Walk) (b : Branch) : (w.keep b).depth = max w.depth b.members.length :=
  depth_file _ b

theorem hits_keep (w : Walk) (b : Branch) :
    (w.keep b).hits = if b.candidates.length = 1 then b.members :: w.hits else w.hits :=
  hits_file _ b

theorem pending_keep (w : Walk) (b : Branch) :
    (w.keep b).pending = if b.candidates.length = 1 then w.pending else w.pending ++ [b] :=
  pending_file _ b

namespace Sized

/-- **Keeping a combination keeps the sizes** if it has room. -/
theorem keep (h : Sized t size w) (hranked : b.members.length ≤ t.ranked.length)
    (hpos : 1 ≤ b.candidates.length)
    (hroom : b.members.length + b.candidates.length ≤ size + 1) : Sized t size (w.keep b) where
  one_le_depth := by
    rw [depth_keep]
    exact h.one_le_depth.trans (Nat.le_max_left _ _)
  depth_le := by
    have := h.depth_le
    rw [depth_keep]
    omega
  hits_le := by
    have hold : ∀ c ∈ w.hits, c.length ≤ max w.depth b.members.length := fun c hc ↦
      (h.hits_le c hc).trans (Nat.le_max_left _ _)
    rw [depth_keep, hits_keep]
    split
    · exact List.forall_mem_cons.2 ⟨Nat.le_max_right _ _, hold⟩
    · exact hold
  room := by
    rw [pending_keep]
    split
    · exact h.room
    · exact List.forall_mem_append.2 ⟨h.room, List.forall_mem_singleton.2 hroom⟩

/-- **Every step keeps the sizes.** -/
theorem step (ht : t.WellRanked) (hinv : Invariant t w) (h : Sized t size w)
    (hs : w.step t.slot = some w') : Sized t size w' := by
  have hroom := h.room
  rcases step_cases hs with ⟨b, rest, hcur, hpop, rfl⟩ | ⟨b, hcur, -, rfl⟩ |
    ⟨b, r, later, hcur, hb, rfl⟩
  · rw [pending_of_current_eq_none hcur, hpop] at hroom
    exact ⟨h.one_le_depth, h.depth_le, h.hits_le, hroom⟩
  · rw [pending_of_current hcur] at hroom
    exact ⟨h.one_le_depth, h.depth_le, h.hits_le, (List.forall_mem_cons.1 hroom).2⟩
  · have hprogress := hinv.toProgress
    have hshared := hinv.shared
    rw [pending_of_current hcur] at hroom hprogress hshared
    obtain ⟨hbroom, hwaiting⟩ := List.forall_mem_cons.1 hroom
    have hbshared := hshared b List.mem_cons_self
    have hskip : Sized t size { w with
        current := some { b with later }
        branches := w.branches + 1 } :=
      ⟨h.one_le_depth, h.depth_le, h.hits_le, List.forall_mem_cons.2 ⟨hbroom, hwaiting⟩⟩
    rcases extend_cases t.slot { w with current := some { b with later } } b r later with
      ⟨heq, -⟩ | ⟨heq, hnarrows⟩
    · rw [heq]
      exact hskip
    · have hsub := hprogress.sublist_of_leadsTo List.mem_cons_self
        (Branch.leadsTo_grow (Slots.intersect b.candidates r.postings) hb)
      have hr : r ∈ t.ranked := hsub.subset List.mem_concat_self
      have hext := hbshared.extension (ht.ascending r hr) later
      have hslot : t.slot ∈ (b.extension r later).candidates :=
        (hext.mem_candidates _).2 fun x hx ↦ ht.slot_mem x (hsub.subset hx)
      -- one member more, and at least one candidate less
      have hlen : (b.extension r later).members.length = b.members.length + 1 :=
        List.length_append
      have hle : (b.extension r later).candidates.length ≤ b.candidates.length :=
        (Slots.intersect_sublist_left _ _).length_le
      rw [heq]
      exact hskip.keep hsub.length_le (List.length_pos_of_mem hslot) (by omega)

/-- **Seeding keeps the sizes**, as a posting list has at most all methods. -/
theorem seed (h : Sized t size w) {features : List Ranked} (hsub : features ⊆ t.ranked)
    (hslot : ∀ r ∈ t.ranked, t.slot ∈ r.postings)
    (hlen : ∀ r ∈ t.ranked, r.postings.length ≤ size) :
    Sized t size (w.seed t.slot features) := by
  induction features generalizing w with
  | nil => exact h
  | cons r later ih =>
    obtain ⟨hr, hlater⟩ := List.cons_subset.1 hsub
    rw [Walk.seed, if_pos (List.contains_iff_mem.2 (hslot r hr))]
    -- a single feature is kept like any other combination, as the depth is 1 at least
    have hkeep : { w with seen := w.seen.insert [r.rank] }.file ⟨[r], r.postings, later⟩ =
        w.keep ⟨[r], r.postings, later⟩ := by
      show _ = Walk.file { w with seen := _, depth := max w.depth 1 } _
      rw [Nat.max_eq_left h.one_le_depth]
      rfl
    rw [hkeep]
    have hpos : 1 ≤ t.ranked.length := List.length_pos_of_mem hr
    have hroom : 1 + r.postings.length ≤ size + 1 := by
      have := hlen r hr
      omega
    exact ih (h.keep hpos (List.length_pos_of_mem (hslot r hr)) hroom) hlater

/-- **The sizes hold wherever a run leads.** -/
theorem of_reaches (ht : t.WellRanked) (hne : t.ranked ≠ []) (hsize : 1 ≤ size)
    (hlen : ∀ r ∈ t.ranked, r.postings.length ≤ size) (h : Reaches t.slot (start t) w) :
    Sized t size w := by
  have hempty : Sized t size empty := {
    one_le_depth := Nat.le_refl 1
    depth_le := Nat.le_min.2 ⟨List.length_pos_of_ne_nil hne, hsize⟩
    hits_le := fun _ hc ↦ absurd hc List.not_mem_nil
    room := fun _ hb ↦ absurd hb List.not_mem_nil }
  have hseed := hempty.seed (List.Subset.refl _) ht.slot_mem hlen
  have hstart : Sized t size (start t) :=
    ⟨hseed.one_le_depth, hseed.depth_le, hseed.hits_le, hseed.room⟩
  exact (h.preserves (p := fun u ↦ Invariant t u ∧ Sized t size u)
    (fun _ _ hs hu ↦ ⟨hu.1.step ht hs, hu.2.step ht hu.1 hs⟩) ⟨invariant_start ht, hstart⟩).2

end Sized

end Walk

/-! ### The search -/

namespace Index

variable {x : Index} {v : FeatureView} {t : Target} {target : MethodId}

/-- The sizes in a walk for a target of an index. -/
theorem Presents.sized_of_reaches (h : x.Presents v) (hok : Target.ofIndex x target = .ok t)
    {w : Walk} (hreaches : Walk.Reaches t.slot (Walk.start t) w) : Walk.Sized t x.size w := by
  have ht := Target.standsFor_of_ofIndex h hok
  have hsize : 1 ≤ x.size := Nat.lt_of_le_of_lt (Nat.zero_le _) (Target.slot_lt_size h hok)
  refine Walk.Sized.of_reaches ht.toWellRanked ht.isolates_ranked.1 hsize (fun r hr ↦ ?_) hreaches
  have hsub : r.postings ⊆ List.range x.size := fun s hs ↦
    List.mem_range.2 (Target.lt_size_of_mem_postings h.toCoherent hok hr hs)
  have hle := (List.subperm_of_subset (ht.ascending r hr).nodup hsub).length_le
  rwa [List.length_range] at hle

/-- **The bounds of a search.** Let a target with `n` features pass the checks in an index of `N`
methods. Whatever the budget, the search comes to an end, where nothing is pending or where it is
cut, in fewer than `3 * 2 ^ n` steps. Until then it has evaluated at most `2 ^ n - n - 1`
extensions, and its depth is at least 1 and at most both `n` and `N`. If it has an outcome, no
fingerprint in it has more features than the depth. -/
theorem search_build_bounded (methods : List Method) (settings : Settings) (target : MethodId)
    (features : FeatureSet) (hfeatures : settings.featuresOf methods target = some features)
    (hchecks : ∃ t, Target.ofIndex (build methods settings) target = .ok t)
    (budget : Budget) (clock : Clock) :
    ∃ t w complete, Target.ofIndex (build methods settings) target = .ok t ∧
      (Walk.start t).run budget clock t.slot = (w, complete) ∧
      (w.pending = [] ∨ w.IsCut budget clock) ∧
      ((Walk.start t).states budget clock t.slot).length < 3 * 2 ^ features.size ∧
      w.branches ≤ 2 ^ features.size - features.size - 1 ∧
      1 ≤ w.depth ∧ w.depth ≤ min features.size (build methods settings).size ∧
      ∀ o, (build methods settings).search budget clock target = .ok o →
        o.stats = w.stats ∧ ∀ s ∈ o.fingerprints, s.size ≤ o.stats.depth := by
  have h := presents_build methods settings
  obtain ⟨t, hok⟩ := hchecks
  have ht := Target.standsFor_of_ofIndex h hok
  have hsize : features.size = t.ranked.length := by
    have heq := ht.features_eq
    rw [hfeatures] at heq
    rw [Option.some.inj heq, FeatureSet.size_ofList_of_nodup ht.nodup_features, List.length_map]
  obtain ⟨hreaches, hdone, hcut⟩ := Walk.run_spec budget clock t.slot (Walk.start t)
  have hsized := h.sized_of_reaches hok hreaches
  rw [hsize]
  refine ⟨t, _, _, hok, rfl, ?_, Walk.length_states_start_lt budget clock t,
    Walk.branches_le_of_reaches hreaches, hsized.one_le_depth, hsized.depth_le, fun o ho ↦ ?_⟩
  · cases hflag : ((Walk.start t).run budget clock t.slot).2 with
    | true => exact Or.inl (hdone hflag)
    | false => exact Or.inr (hcut hflag)
  · rw [search_eq_conclude hok] at ho
    obtain ⟨hfingerprints, -, hstats⟩ := Walk.of_conclude_eq_ok ho
    refine ⟨hstats, fun s hs ↦ ?_⟩
    rw [hfingerprints] at hs
    obtain ⟨c, hc, rfl⟩ := Walk.mem_found.1 (FeatureSet.mem_minimal.1 hs).1
    rw [hstats]
    calc (FeatureSet.ofList (c.map Ranked.feature)).size
        ≤ (c.map Ranked.feature).length := FeatureSet.size_ofList_le _
      _ = c.length := List.length_map _
      _ ≤ ((Walk.start t).run budget clock t.slot).1.depth := hsized.hits_le c hc

/-- The case of the first of three methods, with four features, and a budget of five extensions. -/
theorem search_build_bounded_pairedMethods :
    Settings.featuresOf {} pairedMethods ⟨"La;f()V"⟩ =
        some (.ofList [.accessFlags 1, .returnType "V", .string "x", .string "y"]) ∧
      (∃ t, Target.ofIndex (build pairedMethods {}) ⟨"La;f()V"⟩ = .ok t) ∧
      ∃ t w complete, Target.ofIndex (build pairedMethods {}) ⟨"La;f()V"⟩ = .ok t ∧
        (Walk.start t).run (Budget.unlimited.withMaxBranches 5) .still t.slot = (w, complete) ∧
        (w.pending = [] ∨ w.IsCut (Budget.unlimited.withMaxBranches 5) .still) ∧
        ((Walk.start t).states (Budget.unlimited.withMaxBranches 5) .still t.slot).length <
          3 * 2 ^ 4 ∧
        w.branches ≤ 2 ^ 4 - 4 - 1 ∧ 1 ≤ w.depth ∧
        w.depth ≤ min 4 (build pairedMethods {}).size ∧
        ∀ o, (build pairedMethods {}).search (Budget.unlimited.withMaxBranches 5) .still
            ⟨"La;f()V"⟩ = .ok o →
          o.stats = w.stats ∧ ∀ s ∈ o.fingerprints, s.size ≤ o.stats.depth := by
  have hfeatures : Settings.featuresOf {} pairedMethods ⟨"La;f()V"⟩ =
      some (.ofList [.accessFlags 1, .returnType "V", .string "x", .string "y"]) := by
    decide +kernel
  have hchecks : ∃ t, Target.ofIndex (build pairedMethods {}) ⟨"La;f()V"⟩ = .ok t :=
    Target.exists_ofIndex_eq_ok (presents_build pairedMethods {}) hfeatures (by decide +kernel)
  have hsize : (FeatureSet.ofList [.accessFlags 1, .returnType "V", .string "x",
      .string "y"]).size = 4 := by decide +kernel
  have hbounded := search_build_bounded pairedMethods {} ⟨"La;f()V"⟩ _ hfeatures hchecks
    (Budget.unlimited.withMaxBranches 5) .still
  rw [hsize] at hbounded
  exact ⟨hfeatures, hchecks, hbounded⟩

end Index

end MethodFingerprint
