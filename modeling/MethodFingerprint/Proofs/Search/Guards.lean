import MethodFingerprint.Proofs.Search.Failure
import MethodFingerprint.Proofs.Search.Peak

/-!
# Checks that never reject anything

The walk looks twice whether the target is among the candidates, when a single feature is filed and
when an extension is evaluated, and it notes the combinations that it has met so as not to keep one
of them again. None of this is ever needed. The target has all its features, so it is a candidate of
every combination of them; and every combination is met once, as an extension is only made by
features that are ranked after all its members.

`Index.searchUnguarded` is the search without the three checks. It agrees with the search step by
step: with what was met left aside, one step of the walk is one step of the walk without checks
(`Walk.forget_step`), as long as nothing is rejected. That nothing is rejected follows from the
invariant that already carries coverage (`Walk.Invariant`), at every state that a search passes
through, wherever its budget cuts it.

On the way the pending branches are described completely (`Branch.IsSound`): their members stand by
rank, and their candidates are those that the index has for the members, of which there are at least
two (`Walk.IsOpen`). `Walk.IsSound` adds that they stand by size, and what spares the next extension
its checks.
-/

namespace MethodFingerprint

namespace Walk

/-! ### The walk without checks -/

/-- Files every feature as a combination of its own. -/
def seedUnguarded (w : Walk) : List Ranked → Walk
  | [] => w
  | r :: later => seedUnguarded (w.file ⟨[r], r.postings, later⟩) later

/-- The state in which the search without checks starts. Nothing is ever noted as met. -/
def startUnguarded (t : Target) : Walk :=
  let w := empty.seedUnguarded t.ranked
  { w with frontierPeak := w.frontier.size }

/-- Evaluates the extension of a branch by a later feature. The extension is kept if candidates have
gone. -/
def extendUnguarded (w : Walk) (b : Branch) (r : Ranked) (later : List Ranked) : Walk :=
  let w := { w with branches := w.branches + 1 }
  let narrowed := Slots.intersect b.candidates r.postings
  if narrowed.length = b.candidates.length then w
  else
    let members := b.members ++ [r]
    { w with depth := max w.depth members.length }.file ⟨members, narrowed, later⟩

/-- The next state, if there is anything left to do. -/
def stepUnguarded (w : Walk) : Option Walk :=
  match w.current with
  | none => w.frontier.pop?.map fun (b, rest) ↦ { w with current := some b, frontier := rest }
  | some b =>
    match b.later with
    | [] => some { w with current := none, frontierPeak := max w.frontierPeak w.frontier.size }
    | r :: later => some ({ w with current := some { b with later } }.extendUnguarded b r later)

theorem weight_extendUnguarded_le (w : Walk) (b : Branch) (r : Ranked) (later : List Ranked) :
    (w.extendUnguarded b r later).weight ≤ w.weight + stepBound later.length := by
  simp only [extendUnguarded]
  split
  · exact Nat.le_add_right _ _
  · exact weight_file_le _ _

/-- **A step without checks lowers the weight too.** -/
theorem weight_stepUnguarded_lt {w w' : Walk} (h : w.stepUnguarded = some w') :
    w'.weight < w.weight := by
  unfold stepUnguarded at h
  split at h
  · rename_i hc
    obtain ⟨⟨b, rest⟩, hp, rfl⟩ := Option.map_eq_some_iff.1 h
    exact weight_take_lt hc hp
  · rename_i b hc
    split at h
    · rename_i hl
      obtain rfl := Option.some.inj h
      exact weight_putAway_lt hc hl _
    · rename_i r later hl
      obtain rfl := Option.some.inj h
      exact Nat.lt_of_le_of_lt (weight_extendUnguarded_le _ _ _ _) (weight_skip_add_lt hc hl)

/-- Walks on without checks until nothing is left to do, or until a limit forbids the next
extension. -/
def runUnguarded (budget : Budget) (clock : Clock) (w : Walk) : Walk × Bool :=
  if w.isExtending && budget.isExhausted clock w.branches then (w, false)
  else match _h : w.stepUnguarded with
    | none => (w, true)
    | some w' => w'.runUnguarded budget clock
termination_by w.weight
decreasing_by exact weight_stepUnguarded_lt _h

end Walk

/-- **The search without checks** for membership and repetitions. -/
def Index.searchUnguarded (x : Index) (budget : Budget) (clock : Clock) (target : MethodId) :
    Except SearchError Outcome :=
  match Target.ofIndex x target with
  | .error e => .error e
  | .ok t =>
    let (w, complete) := (Walk.startUnguarded t).runUnguarded budget clock
    w.conclude target complete

namespace Walk

variable {slot : Slot} {w w' : Walk} {t : Target}

/-! ### Several candidates are left -/

/-- No pending branch is down to one candidate. -/
def IsOpen (w : Walk) : Prop := ∀ b ∈ w.pending, b.candidates.length ≠ 1

/-- **What has one candidate is a hit** and does not wait. -/
theorem IsOpen.file (h : w.IsOpen) (b : Branch) : (w.file b).IsOpen := by
  rw [IsOpen, pending_file]
  split
  · exact h
  · rename_i hb
    exact List.forall_mem_append.2 ⟨h, List.forall_mem_singleton.2 hb⟩

theorem IsOpen.seed (h : w.IsOpen) (slot : Slot) (features : List Ranked) :
    (w.seed slot features).IsOpen := by
  induction features generalizing w with
  | nil => exact h
  | cons r later ih =>
    rw [Walk.seed]
    split
    · refine ih (IsOpen.file ?_ _)
      exact h
    · exact ih h

/-- **Every step leaves several candidates.** -/
theorem IsOpen.step (h : w.IsOpen) (hs : w.step slot = some w') : w'.IsOpen := by
  rcases step_cases hs with ⟨b, rest, hcur, hpop, rfl⟩ | ⟨b, hcur, -, rfl⟩ |
    ⟨b, r, later, hcur, -, rfl⟩
  · rw [IsOpen, pending_of_current_eq_none hcur, hpop] at h
    exact h
  · rw [IsOpen, pending_of_current hcur] at h
    exact (List.forall_mem_cons.1 h).2
  · rw [IsOpen, pending_of_current hcur] at h
    obtain ⟨hb, hwaiting⟩ := List.forall_mem_cons.1 h
    have hskip : IsOpen { w with current := some { b with later }, branches := w.branches + 1 } :=
      List.forall_mem_cons.2 ⟨hb, hwaiting⟩
    rcases extend_cases slot { w with current := some { b with later } } b r later with
      ⟨heq, -⟩ | ⟨heq, -⟩
    · rw [heq]
      exact hskip
    · rw [heq, keep]
      refine IsOpen.file ?_ _
      exact hskip

theorem IsOpen.of_reaches (h : Reaches t.slot (start t) w) : w.IsOpen := by
  have hempty : empty.IsOpen := fun _ hb ↦ absurd hb List.not_mem_nil
  refine h.preserves (fun _ _ hs hw ↦ hw.step hs) ?_
  exact hempty.seed t.slot t.ranked

end Walk

/-! ### What is known of a pending branch -/

/-- A branch that waits in the search for a target: its members stand by rank, and its candidates
are those of the members in the index, the target and at least one more. -/
structure Branch.IsSound (x : Index) (t : Target) (b : Branch) : Prop where
  ne_nil : b.members ≠ []
  ascending_ranks : (b.members.map Ranked.rank).Pairwise (· < ·)
  candidates_eq : b.candidates = x.candidatesOf (b.members.map Ranked.feature)
  ascending : b.candidates.Pairwise (· < ·)
  slot_mem : t.slot ∈ b.candidates
  two_le_length : 2 ≤ b.candidates.length

namespace Walk

variable {slot : Slot} {w w' : Walk} {t : Target} {b : Branch} {r : Ranked} {later : List Ranked}
  {x : Index} {v : FeatureView} {target : MethodId}

/-- **Every pending branch is sound.** -/
theorem isSound_of_mem_pending (h : x.Presents v) (hok : Target.ofIndex x target = .ok t)
    (hreaches : Reaches t.slot (start t) w) (hb : b ∈ w.pending) : b.IsSound x t := by
  have ht := (Target.standsFor_of_ofIndex h hok).toWellRanked
  have hinv := Invariant.of_reaches ht hreaches
  have hshared := hinv.shared b hb
  have hmembers : b.members.Sublist t.ranked :=
    (List.sublist_append_left _ _).trans (hinv.sublist b hb)
  have hslot : t.slot ∈ b.candidates :=
    (hshared.mem_candidates t.slot).2 fun r hr ↦ ht.slot_mem r (hmembers.subset hr)
  have hopen := IsOpen.of_reaches hreaches b hb
  have hpos := List.length_pos_of_mem hslot
  exact {
    ne_nil := hshared.ne_nil
    ascending_ranks := ht.ascending_ranks.sublist (hmembers.map _)
    candidates_eq := by
      obtain ⟨_, -, -, -, rfl⟩ := Target.ofIndex_eq_ok_iff.1 hok
      refine Slots.ext hshared.ascending (h.ascending_candidatesOf _) fun s ↦ ?_
      rw [hshared.mem_candidates,
        Target.mem_candidatesOf_map_feature h.toCoherent hmembers.subset hshared.ne_nil]
    ascending := hshared.ascending
    slot_mem := hslot
    two_le_length := by omega }

/-! ### Nothing is rejected -/

/-- **An extension is rejected for nothing but narrowing nothing down**: the target is among its
candidates, and it was not met before. -/
theorem Invariant.not_rejected (ht : t.WellRanked) (h : Invariant t w) (hcur : w.current = some b)
    (hb : b.later = r :: later) :
    t.slot ∈ (b.extension r later).candidates ∧
      (b.extension r later).members.map Ranked.rank ∉ w.seen := by
  have hprogress := h.toProgress
  have hshared := h.shared
  rw [pending_of_current hcur] at hprogress hshared
  have hsub := hprogress.sublist_of_leadsTo List.mem_cons_self
    (Branch.leadsTo_grow (Slots.intersect b.candidates r.postings) hb)
  have hr : r ∈ t.ranked := hsub.subset List.mem_concat_self
  have hext := (hshared b List.mem_cons_self).extension (ht.ascending r hr) later
  exact ⟨(hext.mem_candidates t.slot).2 fun r' hr' ↦ ht.slot_mem r' (hsub.subset hr'),
    hprogress.not_mem_seen _ hb⟩

/-- A state in the search for a target in which no check is needed: what is pending is sound and
stands by size, of two sizes at most that follow on one another, and the next extension has the
target among its candidates and was not met before. -/
structure IsSound (x : Index) (t : Target) (w : Walk) : Prop where
  pending : ∀ b ∈ w.pending, b.IsSound x t
  sizes : w.pending.Pairwise fun b b' ↦
    b.members.length ≤ b'.members.length ∧ b'.members.length ≤ b.members.length + 1
  not_rejected : ∀ b r later, w.current = some b → b.later = r :: later →
    t.slot ∈ (b.extension r later).candidates ∧
      (b.extension r later).members.map Ranked.rank ∉ w.seen

/-- **Every state of a search is sound.** -/
theorem IsSound.of_reaches (h : x.Presents v) (hok : Target.ofIndex x target = .ok t)
    (hreaches : Reaches t.slot (start t) w) : w.IsSound x t := by
  have ht := (Target.standsFor_of_ofIndex h hok).toWellRanked
  have hinv := Invariant.of_reaches ht hreaches
  exact {
    pending := fun b hb ↦ isSound_of_mem_pending h hok hreaches hb
    sizes := hinv.toProgress.sizes
    not_rejected := fun b r later hcur hb ↦ hinv.not_rejected ht hcur hb }

/-! ### Step by step -/

/-- A state without the combinations that were met. -/
def forget (w : Walk) : Walk := { w with seen := ∅ }

theorem forget_file (w : Walk) (b : Branch) : (w.file b).forget = w.forget.file b := by
  unfold file forget
  split <;> rfl

theorem forget_seed {features : List Ranked} (h : ∀ r ∈ features, slot ∈ r.postings) (w : Walk) :
    (w.seed slot features).forget = w.forget.seedUnguarded features := by
  induction features generalizing w with
  | nil => rfl
  | cons r later ih =>
    obtain ⟨hr, hlater⟩ := List.forall_mem_cons.1 h
    rw [seed, if_pos (List.contains_iff_mem.2 hr), ih hlater, forget_file]
    rfl

theorem forget_start (ht : t.WellRanked) : (start t).forget = startUnguarded t := by
  have hseed := forget_seed ht.slot_mem empty
  have hforget : empty.forget = empty := rfl
  rw [hforget] at hseed
  rw [startUnguarded, ← hseed]
  rfl

/-- The extension is evaluated in the same way if it is not rejected. -/
theorem forget_extend (hslot : slot ∈ (b.extension r later).candidates)
    (hnew : (b.extension r later).members.map Ranked.rank ∉ w.seen) :
    (w.extend slot b r later).forget = w.forget.extendUnguarded b r later := by
  have hcontains : (Slots.intersect b.candidates r.postings).contains slot = true :=
    List.contains_iff_mem.2 hslot
  have hseen : w.seen.contains ((b.members ++ [r]).map Ranked.rank) = false :=
    Bool.eq_false_iff.2 hnew
  simp only [extend, extendUnguarded, hcontains, hseen, Bool.not_true, Bool.false_eq_true, if_false]
  split
  · rfl
  · rw [forget_file]
    rfl

/-- **One step is one step without checks.** -/
theorem forget_step (ht : t.WellRanked) (h : Invariant t w) :
    (w.step t.slot).map forget = w.forget.stepUnguarded := by
  unfold step stepUnguarded
  cases hcur : w.current with
  | none =>
    have hforget : w.forget.current = none := hcur
    rw [hforget]
    show (w.frontier.pop?.map _).map _ = w.frontier.pop?.map _
    rw [Option.map_map]
    rfl
  | some b =>
    have hforget : w.forget.current = some b := hcur
    rw [hforget]
    cases hb : b.later with
    | nil => simp only [hb]; rfl
    | cons r later =>
      obtain ⟨hslot, hnew⟩ := h.not_rejected ht hcur hb
      simp only [hb]
      exact congrArg some (forget_extend hslot hnew)

/-- A run without checks stops where the budget cuts it. -/
theorem runUnguarded_eq_of_isCut {budget : Budget} {clock : Clock} (h : w.IsCut budget clock) :
    w.runUnguarded budget clock = (w, false) := by
  rw [runUnguarded, if_pos (Bool.and_eq_true_iff.2 h)]

/-- One that is not cut stops where no step is left. -/
theorem runUnguarded_eq_of_step_eq_none {budget : Budget} {clock : Clock}
    (h : ¬w.IsCut budget clock) (hstep : w.stepUnguarded = none) :
    w.runUnguarded budget clock = (w, true) := by
  rw [runUnguarded, if_neg (mt Bool.and_eq_true_iff.1 h)]
  split
  · rfl
  · rename_i hsome
    rw [hstep] at hsome
    cases hsome

/-- One that is not cut goes on with the next step. -/
theorem runUnguarded_eq_of_step_eq_some {budget : Budget} {clock : Clock}
    (h : ¬w.IsCut budget clock) (hstep : w.stepUnguarded = some w') :
    w.runUnguarded budget clock = w'.runUnguarded budget clock := by
  rw [runUnguarded, if_neg (mt Bool.and_eq_true_iff.1 h)]
  split
  · rename_i hnone
    rw [hstep] at hnone
    cases hnone
  · rename_i hsome
    rw [Option.some.inj (hstep.symm.trans hsome)]

/-- The budget does not ask for what was met. -/
theorem isCut_forget_iff {budget : Budget} {clock : Clock} :
    w.forget.IsCut budget clock ↔ w.IsCut budget clock := Iff.rfl

/-- **A run is a run without checks**, by induction on the run. -/
theorem forget_run (ht : t.WellRanked) (budget : Budget) (clock : Clock) (h : Invariant t w) :
    w.forget.runUnguarded budget clock =
      ((w.run budget clock t.slot).1.forget, (w.run budget clock t.slot).2) := by
  fun_induction run budget clock t.slot w with
  | case1 w hcut =>
    exact runUnguarded_eq_of_isCut (isCut_forget_iff.2 (Bool.and_eq_true_iff.1 hcut))
  | case2 w hcut hstep =>
    have hnone : w.forget.stepUnguarded = none := by
      rw [← forget_step ht h, hstep]
      rfl
    exact runUnguarded_eq_of_step_eq_none
      (mt isCut_forget_iff.1 (mt Bool.and_eq_true_iff.2 hcut)) hnone
  | case3 w hcut w' hstep ih =>
    have hsome : w.forget.stepUnguarded = some w'.forget := by
      rw [← forget_step ht h, hstep]
      rfl
    rw [runUnguarded_eq_of_step_eq_some
      (mt isCut_forget_iff.1 (mt Bool.and_eq_true_iff.2 hcut)) hsome]
    exact ih (h.step ht hstep)

end Walk

namespace Index

variable {x : Index} {v : FeatureView}

/-- **The search without checks is the search**, in its outcome and in its failures. -/
theorem Presents.searchUnguarded_eq (h : x.Presents v) (budget : Budget) (clock : Clock)
    (target : MethodId) :
    x.searchUnguarded budget clock target = x.search budget clock target := by
  cases hok : Target.ofIndex x target with
  | error e => rw [search_eq_error hok, searchUnguarded, hok]
  | ok t =>
    have ht := (Target.standsFor_of_ofIndex h hok).toWellRanked
    have hrun := Walk.forget_run ht budget clock (Walk.Invariant.of_reaches ht .refl)
    rw [Walk.forget_start ht] at hrun
    rw [search_eq_conclude hok, searchUnguarded, hok]
    show ((Walk.startUnguarded t).runUnguarded budget clock).1.conclude target
      ((Walk.startUnguarded t).runUnguarded budget clock).2 = _
    rw [hrun]
    rfl

/-- **No check of the search ever rejects anything.** Let a target pass the checks that are made up
front, in an index that was built from methods. Its slot is in the posting list of every feature
that is ranked for it, and every state that the search passes through is sound, whatever the budget.
The search without checks for membership and repetitions has the same outcome, with the same
statistics, or the same failure. -/
theorem search_build_unguarded (methods : List Method) (settings : Settings) (target : MethodId)
    (budget : Budget) (clock : Clock) :
    (∀ t, Target.ofIndex (build methods settings) target = .ok t →
      (∀ r ∈ t.ranked, t.slot ∈ r.postings) ∧
      ∀ w ∈ (Walk.start t).states budget clock t.slot, w.IsSound (build methods settings) t) ∧
    (build methods settings).searchUnguarded budget clock target =
      (build methods settings).search budget clock target := by
  have h := presents_build methods settings
  refine ⟨fun t hok ↦ ⟨?_, fun w hw ↦ ?_⟩, h.searchUnguarded_eq budget clock target⟩
  · exact (Target.standsFor_of_ofIndex h hok).slot_mem
  · exact Walk.IsSound.of_reaches h hok (Walk.reaches_of_mem_states hw)

/-- The case of a search that is cut while six branches wait, two of them with two members. -/
theorem search_build_unguarded_crossedMethods :
    ∃ o t, (build crossedMethods {}).searchUnguarded twoExtensions .still ⟨"La;f()V"⟩ = .ok o ∧
      Target.ofIndex (build crossedMethods {}) ⟨"La;f()V"⟩ = .ok t ∧
      (∀ r ∈ t.ranked, t.slot ∈ r.postings) ∧
      (∀ w ∈ (Walk.start t).states twoExtensions .still t.slot,
        w.IsSound (build crossedMethods {}) t) ∧
      ((Walk.start t).run twoExtensions .still t.slot).1.highest = 6 := by
  obtain ⟨o, t, ho, ht, -, hhighest⟩ := exists_search_crossedMethods
  obtain ⟨hchecks, heq⟩ :=
    search_build_unguarded crossedMethods {} ⟨"La;f()V"⟩ twoExtensions .still
  obtain ⟨hslot, hstates⟩ := hchecks t ht
  exact ⟨o, t, heq.trans ho, ht, hslot, hstates, hhighest⟩

end Index

end MethodFingerprint
