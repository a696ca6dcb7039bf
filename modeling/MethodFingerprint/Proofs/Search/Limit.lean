import MethodFingerprint.Proofs.Search.Outcome

/-!
# What a limit on the extensions does

A limit decides where a walk stops and nothing else: a walk that was cut can be taken up again where
it stopped, and a walk with a larger limit, or with none, leads through that state
(`Walk.run_eq_run_of_isCut_imp`). Two counts follow from what one step does.

* Extensions are counted one by one (`Walk.branches_step`). A limited walk therefore stops with at
  most as many as it was allowed, and a walk that is cut has used them all up, with at least one
  more to come. So a limit cuts a walk exactly if it is below what the whole walk needs
  (`Walk.run_start_cases`).
* Hits are only added (`Walk.hits_step`). What is reported under a limit is a hit that is minimal in
  the corpus, and it is both under any larger limit: no later hit is a proper part of it.
-/

namespace MethodFingerprint

/-- With a limit on the extensions alone, the clock does not matter. -/
theorem Budget.isExhausted_withMaxBranches (limit : Nat) (clock : Clock) (branches : Nat) :
    (unlimited.withMaxBranches limit).isExhausted clock branches = decide (limit ≤ branches) := by
  simp [isExhausted, withMaxBranches, unlimited]

namespace Walk

variable {slot : Slot} {w w' : Walk} {t : Target}

/-! ### What a step adds -/

theorem branches_file (w : Walk) (b : Branch) : (w.file b).branches = w.branches := by
  rw [file]
  split <;> rfl

theorem hits_suffix_file (w : Walk) (b : Branch) : w.hits <:+ (w.file b).hits := by
  rw [hits_file]
  split
  · exact List.suffix_cons _ _
  · exact List.suffix_rfl

/-- An extension is counted, whether it is kept or not. -/
theorem branches_extend (slot : Slot) (w : Walk) (b : Branch) (r : Ranked) (later : List Ranked) :
    (w.extend slot b r later).branches = w.branches + 1 := by
  rcases extend_cases slot w b r later with ⟨heq, -⟩ | ⟨heq, -⟩
  · rw [heq]
  · rw [heq, keep, branches_file]

theorem hits_suffix_extend (slot : Slot) (w : Walk) (b : Branch) (r : Ranked)
    (later : List Ranked) : w.hits <:+ (w.extend slot b r later).hits := by
  rcases extend_cases slot w b r later with ⟨heq, -⟩ | ⟨heq, -⟩
  · exact heq ▸ List.suffix_rfl
  · rw [heq]
    refine List.IsSuffix.trans ?_ (hits_suffix_file _ _)
    exact List.suffix_rfl

/-- **A step counts one extension if it evaluates one, and none if not.** -/
theorem branches_step (h : w.step slot = some w') :
    w'.branches = w.branches + if w.isExtending then 1 else 0 := by
  rcases step_cases h with ⟨b, rest, hcur, -, rfl⟩ | ⟨b, hcur, hb, rfl⟩ |
    ⟨b, r, later, hcur, hb, rfl⟩
  · simp [isExtending, hcur]
  · simp [isExtending, hcur, hb]
  · rw [branches_extend]
    simp [isExtending, hcur, hb]

/-- **A step takes no hit back.** -/
theorem hits_step (h : w.step slot = some w') : w.hits <:+ w'.hits := by
  rcases step_cases h with ⟨b, rest, -, -, rfl⟩ | ⟨b, -, -, rfl⟩ | ⟨b, r, later, -, -, rfl⟩
  · exact List.suffix_rfl
  · exact List.suffix_rfl
  · refine List.IsSuffix.trans ?_ (hits_suffix_extend slot _ b r later)
    exact List.suffix_rfl

theorem Reaches.branches_le (h : Reaches slot w w') : w.branches ≤ w'.branches :=
  h.preserves (p := fun u ↦ w.branches ≤ u.branches)
    (fun _ _ hs hu ↦ hu.trans (branches_step hs ▸ Nat.le_add_right _ _)) (Nat.le_refl _)

theorem Reaches.hits_suffix (h : Reaches slot w w') : w.hits <:+ w'.hits :=
  h.preserves (p := fun u ↦ w.hits <:+ u.hits) (fun _ _ hs hu ↦ hu.trans (hits_step hs))
    List.suffix_rfl

/-- What was found stays found. -/
theorem Reaches.found_subset (h : Reaches slot w w') : w.found ⊆ w'.found := by
  intro s hs
  obtain ⟨c, hc, hset⟩ := mem_found.1 hs
  exact mem_found.2 ⟨c, h.hits_suffix.subset hc, hset⟩

/-! ### Going on after a cut -/

/-- **A walk can be taken up where a tighter budget cut it.** -/
theorem run_eq_run_of_isCut_imp {budget budget' : Budget} {clock clock' : Clock}
    (h : ∀ w : Walk, w.IsCut budget' clock' → w.IsCut budget clock) (slot : Slot) (w : Walk) :
    w.run budget' clock' slot = (w.run budget clock slot).1.run budget' clock' slot := by
  fun_induction run budget clock slot w with
  | case1 w hcut => rfl
  | case2 w _ hstep => rfl
  | case3 w hcut w' hstep ih =>
    have hgoes : ¬w.IsCut budget' clock' := fun hcut' ↦
      hcut (Bool.and_eq_true_iff.2 (h w hcut'))
    rw [run_eq_of_step_eq_some hgoes hstep]
    exact ih

/-- A state in front of an extension has a next state. -/
theorem IsCut.exists_step {budget : Budget} {clock : Clock} (h : w.IsCut budget clock)
    (slot : Slot) : ∃ w', w.step slot = some w' ∧ w'.branches = w.branches + 1 := by
  obtain ⟨b, r, later, hcur, -⟩ := exists_of_isExtending h.1
  cases hstep : w.step slot with
  | none =>
    have hdone := step_eq_none_iff.1 hstep
    rw [pending_of_current hcur] at hdone
    cases hdone
  | some w' => exact ⟨w', rfl, by rw [branches_step hstep, if_pos h.1]⟩

/-! ### Counting up to a limit -/

theorem isCut_withMaxBranches_iff {limit : Nat} {clock : Clock} :
    w.IsCut (Budget.unlimited.withMaxBranches limit) clock ↔
      w.isExtending = true ∧ limit ≤ w.branches := by
  rw [IsCut, Budget.isExhausted_withMaxBranches, decide_eq_true_iff]

/-- **No walk evaluates more than it is allowed.** -/
theorem branches_run_le {limit : Nat} (clock : Clock) (h : w.branches ≤ limit) :
    (w.run (Budget.unlimited.withMaxBranches limit) clock slot).1.branches ≤ limit := by
  fun_induction run (Budget.unlimited.withMaxBranches limit) clock slot w with
  | case1 w _ => exact h
  | case2 w _ _ => exact h
  | case3 w hcut w' hstep ih =>
    refine ih ?_
    rw [branches_step hstep]
    by_cases hext : w.isExtending = true
    · have hlt : w.branches < limit := by
        by_contra hle
        exact hcut (Bool.and_eq_true_iff.2 (isCut_withMaxBranches_iff.2 ⟨hext, not_lt.1 hle⟩))
      rw [if_pos hext]
      omega
    · rw [if_neg hext]
      exact h

theorem branches_seed (slot : Slot) (w : Walk) (features : List Ranked) :
    (w.seed slot features).branches = w.branches := by
  induction features generalizing w with
  | nil => rfl
  | cons r later ih =>
    rw [seed]
    split
    · rw [ih, branches_file]
    · exact ih w

/-- Seeding counts nothing. -/
theorem branches_start (t : Target) : (start t).branches = 0 :=
  branches_seed t.slot empty t.ranked

/-- **A limit cuts the walk exactly if the whole walk needs more**, and the walk then stops right at
the limit. Otherwise it is the whole walk. -/
theorem run_start_cases (t : Target) (limit : Nat) (clock clock' : Clock) {w full : Walk × Bool}
    (hw : (start t).run (Budget.unlimited.withMaxBranches limit) clock t.slot = w)
    (hfull : (start t).run .unlimited clock' t.slot = full) :
    (w.2 = false ∧ w.1.branches = limit ∧ limit < full.1.branches) ∨
      (w = full ∧ full.1.branches ≤ limit) := by
  have hresume : full = w.1.run .unlimited clock' t.slot := by
    rw [← hfull, ← hw]
    exact run_eq_run_of_isCut_imp (fun u hu ↦ absurd hu (not_isCut_unlimited clock' u)) _ _
  have hle : w.1.branches ≤ limit := by
    rw [← hw]
    exact branches_run_le clock (by rw [branches_start]; exact Nat.zero_le limit)
  obtain ⟨-, hdone, hcut⟩ :=
    run_spec (Budget.unlimited.withMaxBranches limit) clock t.slot (start t)
  rw [hw] at hdone hcut
  cases hflag : w.2 with
  | true =>
    have hrun : w.1.run .unlimited clock' t.slot = (w.1, true) :=
      run_eq_of_step_eq_none (not_isCut_unlimited _ _) (step_eq_none_iff.2 (hdone hflag))
    have heq : w = full := by
      rw [hresume, hrun, ← hflag]
    exact Or.inr ⟨heq, heq ▸ hle⟩
  | false =>
    have hstop := hcut hflag
    have hge := (isCut_withMaxBranches_iff.1 hstop).2
    obtain ⟨w', hstep, hcount⟩ := hstop.exists_step t.slot
    have hlast : w'.branches ≤ full.1.branches := by
      rw [hresume, run_eq_of_step_eq_some (not_isCut_unlimited _ _) hstep]
      exact (run_spec .unlimited clock' t.slot w').1.branches_le
    exact Or.inl ⟨rfl, by omega, by omega⟩

/-- **A larger limit leads on from where a smaller one stops.** -/
theorem reaches_run_of_le (t : Target) {limit limit' : Nat} (h : limit ≤ limit')
    (clock clock' : Clock) :
    Reaches t.slot ((start t).run (Budget.unlimited.withMaxBranches limit) clock t.slot).1
      ((start t).run (Budget.unlimited.withMaxBranches limit') clock' t.slot).1 := by
  have hcut (u : Walk) (hu : u.IsCut (Budget.unlimited.withMaxBranches limit') clock') :
      u.IsCut (Budget.unlimited.withMaxBranches limit) clock := by
    rw [isCut_withMaxBranches_iff] at hu ⊢
    exact ⟨hu.1, h.trans hu.2⟩
  rw [run_eq_run_of_isCut_imp hcut t.slot (start t)]
  exact (run_spec _ clock' t.slot _).1

end Walk

/-! ### The searches -/

namespace Index

variable {x : Index} {v : FeatureView} {target : MethodId}

/-- **More extensions, more fingerprints.** What is reported under a limit is reported under every
larger one. -/
theorem Presents.mem_fingerprints_of_le (h : x.Presents v) {limit limit' : Nat}
    (hle : limit ≤ limit') (clock clock' : Clock) {o : Outcome}
    (ho : x.search (Budget.unlimited.withMaxBranches limit) clock target = .ok o)
    {s : FeatureSet} (hs : s ∈ o.fingerprints) :
    ∃ o', x.search (Budget.unlimited.withMaxBranches limit') clock' target = .ok o' ∧
      s ∈ o'.fingerprints := by
  cases hok : Target.ofIndex x target with
  | error e =>
    rw [search, hok] at ho
    cases ho
  | ok t =>
    have ht := Target.standsFor_of_ofIndex h hok
    rw [search_eq_conclude hok] at ho ⊢
    set run := (Walk.start t).run (Budget.unlimited.withMaxBranches limit) clock t.slot with hrun
    set run' := (Walk.start t).run (Budget.unlimited.withMaxBranches limit') clock' t.slot
      with hrun'
    have hinv : Walk.Invariant t run.1 := Walk.Invariant.of_reaches ht.toWellRanked
      (Walk.run_spec _ clock t.slot _).1
    have hinv' : Walk.Invariant t run'.1 := Walk.Invariant.of_reaches ht.toWellRanked
      (Walk.run_spec _ clock' t.slot _).1
    obtain ⟨hreported, -⟩ := Walk.of_conclude_eq_ok ho
    rw [hreported] at hs
    obtain ⟨hfound, hmin⟩ := (hinv.mem_minimal_found ht).1 hs
    have hfound' : s ∈ run'.1.found :=
      (Walk.reaches_run_of_le t hle clock clock').found_subset hfound
    exact ⟨_, Walk.conclude_eq_ok ht hinv' (Or.inr (List.ne_nil_of_mem hfound')),
      (hinv'.mem_minimal_found ht).2 ⟨hfound', hmin⟩⟩

/-- **The threshold of a limit.** Let a target pass the checks, and count the extensions that the
search without limits evaluates. A limit that is not below the count changes nothing at all. A
smaller one stops the search when exactly so many extensions have been evaluated: with an incomplete
outcome, or exhausted if nothing was found. And of two limits the larger one reports all that the
smaller one does. -/
theorem search_build_withMaxBranches (methods : List Method) (settings : Settings)
    (target : MethodId)
    (hchecks : ∃ t, Target.ofIndex (build methods settings) target = .ok t) (clock : Clock) :
    ∃ full, (build methods settings).minimalFingerprints target = .ok full ∧
      full.complete = true ∧
      (∀ limit, full.stats.branches ≤ limit →
        (build methods settings).search (Budget.unlimited.withMaxBranches limit) clock target =
          .ok full) ∧
      (∀ limit, limit < full.stats.branches →
        (∃ o, (build methods settings).search (Budget.unlimited.withMaxBranches limit) clock
            target = .ok o ∧ o.complete = false ∧ o.stats.branches = limit) ∨
          (build methods settings).search (Budget.unlimited.withMaxBranches limit) clock target =
            .error (.exhausted target limit)) ∧
      ∀ limit limit', limit ≤ limit' → ∀ o,
        (build methods settings).search (Budget.unlimited.withMaxBranches limit) clock target =
          .ok o →
        ∀ s ∈ o.fingerprints, ∃ o',
          (build methods settings).search (Budget.unlimited.withMaxBranches limit') clock target =
            .ok o' ∧ s ∈ o'.fingerprints := by
  have h := presents_build methods settings
  obtain ⟨t, hok⟩ := hchecks
  obtain ⟨full, hfull, hcomplete, -⟩ := h.minimalFingerprints_spec hok
  have hbranches : full.stats.branches =
      ((Walk.start t).run .unlimited .still t.slot).1.branches := by
    rw [minimalFingerprints, search_eq_conclude hok, Walk.conclude] at hfull
    split at hfull
    · cases hfull
    · cases hfull
      rfl
  refine ⟨full, hfull, hcomplete, fun limit hlimit ↦ ?_, fun limit hlimit ↦ ?_,
    fun limit limit' hle o ho s hs ↦ h.mem_fingerprints_of_le hle clock clock ho hs⟩
  · rw [hbranches] at hlimit
    rcases Walk.run_start_cases t limit clock .still rfl rfl with ⟨-, -, hlt⟩ | ⟨heq, -⟩
    · omega
    · rw [search_eq_conclude hok, heq, ← search_eq_conclude hok]
      exact hfull
  · rw [hbranches] at hlimit
    rcases Walk.run_start_cases t limit clock .still rfl rfl with ⟨hflag, hcount, -⟩ | ⟨-, hge⟩
    · rw [search_eq_conclude hok, Walk.conclude, hflag, hcount]
      split
      · exact Or.inr rfl
      · exact Or.inl ⟨_, rfl, rfl, hcount⟩
    · omega

/-- Three methods. Each of the two strings of the first is shared with one of the others, so that
only both together single it out, and none of the pairs without them narrows anything down. -/
def pairedMethods : List Method :=
  [⟨"La;", "f", 1, "V", [], [], ["x", "y"]⟩, ⟨"La;", "g", 1, "V", [], [], ["x"]⟩,
    ⟨"La;", "h", 1, "V", [], [], ["y"]⟩]

/-- The case of the first of three methods. -/
theorem search_build_withMaxBranches_pairedMethods :
    (∃ t, Target.ofIndex (build pairedMethods {}) ⟨"La;f()V"⟩ = .ok t) ∧
    ∃ full, (build pairedMethods {}).minimalFingerprints ⟨"La;f()V"⟩ = .ok full ∧
      full.complete = true ∧
      (∀ limit, full.stats.branches ≤ limit →
        (build pairedMethods {}).search (Budget.unlimited.withMaxBranches limit) .still
          ⟨"La;f()V"⟩ = .ok full) ∧
      (∀ limit, limit < full.stats.branches →
        (∃ o, (build pairedMethods {}).search (Budget.unlimited.withMaxBranches limit) .still
            ⟨"La;f()V"⟩ = .ok o ∧ o.complete = false ∧ o.stats.branches = limit) ∨
          (build pairedMethods {}).search (Budget.unlimited.withMaxBranches limit) .still
            ⟨"La;f()V"⟩ = .error (.exhausted ⟨"La;f()V"⟩ limit)) ∧
      ∀ limit limit', limit ≤ limit' → ∀ o,
        (build pairedMethods {}).search (Budget.unlimited.withMaxBranches limit) .still
          ⟨"La;f()V"⟩ = .ok o →
        ∀ s ∈ o.fingerprints, ∃ o',
          (build pairedMethods {}).search (Budget.unlimited.withMaxBranches limit') .still
            ⟨"La;f()V"⟩ = .ok o' ∧ s ∈ o'.fingerprints := by
  have hfeatures : Settings.featuresOf {} pairedMethods ⟨"La;f()V"⟩ =
      some (.ofList [.accessFlags 1, .returnType "V", .string "x", .string "y"]) := by
    decide +kernel
  have hchecks : ∃ t, Target.ofIndex (build pairedMethods {}) ⟨"La;f()V"⟩ = .ok t :=
    Target.exists_ofIndex_eq_ok (presents_build pairedMethods {}) hfeatures (by decide +kernel)
  exact ⟨hchecks, search_build_withMaxBranches pairedMethods {} ⟨"La;f()V"⟩ hchecks .still⟩

end Index

end MethodFingerprint
