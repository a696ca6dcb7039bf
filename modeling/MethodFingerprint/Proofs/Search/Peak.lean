import MethodFingerprint.Proofs.Search.Outcome
import Mathlib.Data.List.Permutation
import Mathlib.Order.Bounds.Defs

/-!
# The longest frontier

A walk notes how long its frontier has been: after the seeding, and whenever it puts a branch away.
Between two notes the frontier only grows, once the branch at hand has been taken from it, so a note
is the greatest length since the one before (`Walk.highest_step`). A run that goes to its end puts
its last branch away, and what it has noted is the greatest length of all.

A run that is cut leaves the branch at hand without a note. What the frontier has gained from this
branch may then be missing: the greatest length is that of the last frontier if this is longer than
what was noted (`Walk.isGreatest_highest`). So the peak of an outcome is the greatest length exactly
if the last frontier is no longer than the peak (`Index.search_frontierPeak`), and there are
outcomes of which it is longer (`Index.not_isGreatest_frontierPeak_crossedMethods`).
-/

namespace MethodFingerprint

namespace Walk

variable {slot : Slot} {w w' : Walk} {t : Target}

/-- The lengths that the frontier has in the course of a run. -/
def frontierSizes (budget : Budget) (clock : Clock) (slot : Slot) (w : Walk) : List Nat :=
  (w.states budget clock slot).map fun u ↦ u.frontier.size

theorem size_mem_frontierSizes {budget : Budget} {clock : Clock}
    (h : w' ∈ w.states budget clock slot) :
    w'.frontier.size ∈ w.frontierSizes budget clock slot :=
  List.mem_map_of_mem h

/-- The greatest length that is known: the one noted, or the present one. -/
def highest (w : Walk) : Nat := max w.frontierPeak w.frontier.size

/-- The present length is noted unless a branch is at hand. -/
def IsNoted (w : Walk) : Prop := w.current = none → w.frontier.size ≤ w.frontierPeak

/-! ### What a step does to the frontier -/

theorem frontierPeak_file (w : Walk) (b : Branch) : (w.file b).frontierPeak = w.frontierPeak := by
  rw [file]
  split <;> rfl

theorem size_frontier_le_file (w : Walk) (b : Branch) :
    w.frontier.size ≤ (w.file b).frontier.size := by
  rw [file]
  split
  · exact Nat.le_refl _
  · exact Nat.le_succ _

/-- An extension takes nothing from the frontier and notes nothing. -/
theorem frontier_extend (slot : Slot) (w : Walk) (b : Branch) (r : Ranked) (later : List Ranked) :
    (w.extend slot b r later).current = w.current ∧
      (w.extend slot b r later).frontierPeak = w.frontierPeak ∧
      w.frontier.size ≤ (w.extend slot b r later).frontier.size := by
  rcases extend_cases slot w b r later with ⟨heq, -⟩ | ⟨heq, -⟩
  · rw [heq]
    exact ⟨rfl, rfl, Nat.le_refl _⟩
  · rw [heq, keep]
    refine ⟨current_file _ _, frontierPeak_file _ _, Nat.le_trans ?_ (size_frontier_le_file _ _)⟩
    exact Nat.le_refl _

/-- **A step raises the greatest known length to that of its frontier** if this is longer. Whatever
was noted stays noted. -/
theorem highest_step (h : w.step slot = some w') (hw : w.IsNoted) :
    w'.IsNoted ∧ w'.highest = max w.highest w'.frontier.size := by
  rcases step_cases h with ⟨b, rest, hcur, hpop, rfl⟩ | ⟨b, -, -, rfl⟩ | ⟨b, r, later, -, -, rfl⟩
  · -- nothing was at hand, so the frontier that the branch is taken from was noted
    have hnoted := hw hcur
    have hsize : w.frontier.size = rest.size + 1 := by
      rw [Frontier.size_eq_length, Frontier.size_eq_length, hpop, List.length_cons]
    refine ⟨fun hnone ↦ (nomatch hnone), ?_⟩
    show max w.frontierPeak rest.size = max (max w.frontierPeak w.frontier.size) rest.size
    omega
  · refine ⟨fun _ ↦ Nat.le_max_right _ _, ?_⟩
    show max (max w.frontierPeak w.frontier.size) w.frontier.size =
      max (max w.frontierPeak w.frontier.size) w.frontier.size
    rfl
  · obtain ⟨hcur, hpeak, hsize⟩ :=
      frontier_extend slot { w with current := some { b with later } } b r later
    refine ⟨fun hnone ↦ (nomatch hcur.symm.trans hnone), ?_⟩
    have hle : w.frontier.size ≤ _ := hsize
    rw [highest, hpeak]
    show max w.frontierPeak _ = max (max w.frontierPeak w.frontier.size) _
    omega

/-! ### Whole runs -/

/-- **Where a run ends, the greatest length is known**: no frontier of the run is longer, and unless
it was known before, one is as long. By induction on the run. -/
theorem highest_run (budget : Budget) (clock : Clock) (slot : Slot) (hw : w.IsNoted) :
    (w.run budget clock slot).1.IsNoted ∧ w.highest ≤ (w.run budget clock slot).1.highest ∧
      (∀ n ∈ w.frontierSizes budget clock slot, n ≤ (w.run budget clock slot).1.highest) ∧
      ((w.run budget clock slot).1.highest = w.highest ∨
        (w.run budget clock slot).1.highest ∈ w.frontierSizes budget clock slot) := by
  have hend (u : Walk) (hu : u.IsNoted) : u.IsNoted ∧ u.highest ≤ u.highest ∧
      (∀ n ∈ [u].map fun v ↦ v.frontier.size, n ≤ u.highest) ∧
      (u.highest = u.highest ∨ u.highest ∈ [u].map fun v ↦ v.frontier.size) :=
    ⟨hu, Nat.le_refl _, List.forall_mem_singleton.2 (Nat.le_max_right _ _), Or.inl rfl⟩
  unfold frontierSizes
  fun_induction states budget clock slot w with
  | case1 w hcut =>
    rw [run_eq_of_isCut (Bool.and_eq_true_iff.1 hcut)]
    exact hend w hw
  | case2 w hcut hstep =>
    rw [run_eq_of_step_eq_none (mt Bool.and_eq_true_iff.2 hcut) hstep]
    exact hend w hw
  | case3 w hcut w' hstep ih =>
    rw [run_eq_of_step_eq_some (mt Bool.and_eq_true_iff.2 hcut) hstep]
    obtain ⟨hnoted, hhighest⟩ := highest_step hstep hw
    obtain ⟨hlast, hle, hall, hsome⟩ := ih hnoted
    have hw' : w.highest ≤ w'.highest := hhighest ▸ Nat.le_max_left _ _
    have hsize : w.frontier.size ≤ w.highest := Nat.le_max_right _ _
    rw [List.map_cons]
    refine ⟨hlast, hw'.trans hle, List.forall_mem_cons.2 ⟨hsize.trans (hw'.trans hle), hall⟩, ?_⟩
    rcases hsome with heq | hmem
    · -- what is known after the step was known before, or is the length that the step gave
      rcases Nat.le_total w'.frontier.size w.highest with hmax | hmax
      · exact Or.inl (heq.trans (hhighest.trans (Nat.max_eq_left hmax)))
      · refine Or.inr (List.mem_cons_of_mem _ ?_)
        rw [heq, hhighest, Nat.max_eq_right hmax]
        exact List.mem_map_of_mem (mem_states_self budget clock slot w')
    · exact Or.inr (List.mem_cons_of_mem _ hmem)

/-- At the start the length is noted. -/
theorem isNoted_start (t : Target) : (start t).IsNoted := fun _ ↦ Nat.le_refl _

/-- **The greatest length of a run** is the one noted or that of the last frontier. -/
theorem isGreatest_highest (budget : Budget) (clock : Clock) (t : Target) :
    IsGreatest {n | n ∈ (start t).frontierSizes budget clock t.slot}
      ((start t).run budget clock t.slot).1.highest := by
  obtain ⟨-, -, hall, hsome⟩ := highest_run budget clock t.slot (isNoted_start t)
  refine ⟨?_, hall⟩
  rcases hsome with heq | hmem
  · have hstart : (start t).highest = (start t).frontier.size := Nat.max_self _
    rw [heq, hstart]
    exact size_mem_frontierSizes (mem_states_self budget clock t.slot (start t))
  · exact hmem

/-- **What is noted is the greatest length** exactly if the last frontier is no longer. -/
theorem isGreatest_frontierPeak_iff (budget : Budget) (clock : Clock) (t : Target) :
    IsGreatest {n | n ∈ (start t).frontierSizes budget clock t.slot}
        ((start t).run budget clock t.slot).1.frontierPeak ↔
      ((start t).run budget clock t.slot).1.frontier.size ≤
        ((start t).run budget clock t.slot).1.frontierPeak := by
  constructor
  · intro hgreatest
    exact hgreatest.2 (size_mem_frontierSizes (run_mem_states budget clock t.slot (start t)))
  · intro hle
    have hgreatest := isGreatest_highest budget clock t
    rwa [highest, Nat.max_eq_left hle] at hgreatest

/-- A run that goes to its end has noted its last frontier. -/
theorem size_frontier_le_of_complete (budget : Budget) (clock : Clock) (t : Target)
    (hcomplete : ((start t).run budget clock t.slot).2 = true) :
    ((start t).run budget clock t.slot).1.frontier.size ≤
      ((start t).run budget clock t.slot).1.frontierPeak := by
  obtain ⟨hnoted, -⟩ := highest_run budget clock t.slot (isNoted_start t)
  refine hnoted ?_
  have hdone := (run_spec budget clock t.slot (start t)).2.1 hcomplete
  exact Option.toList_eq_nil_iff.1 (List.append_eq_nil_iff.1 hdone).1

end Walk

namespace Index

/-- **The peak of an outcome.** The greatest length that the frontier has in the course of a search
with an outcome is the peak that is reported or the length of the last frontier, if this is longer.
So the peak is the greatest length exactly if the last frontier is no longer; and it is the greatest
length of every complete search. -/
theorem search_frontierPeak (x : Index) (budget : Budget) (clock : Clock) (target : MethodId)
    (o : Outcome) (ho : x.search budget clock target = .ok o) :
    ∃ t w, Target.ofIndex x target = .ok t ∧
      (Walk.start t).run budget clock t.slot = (w, o.complete) ∧
      IsGreatest {n | n ∈ (Walk.start t).frontierSizes budget clock t.slot}
        (max o.stats.frontierPeak w.frontier.size) ∧
      (IsGreatest {n | n ∈ (Walk.start t).frontierSizes budget clock t.slot}
          o.stats.frontierPeak ↔ w.frontier.size ≤ o.stats.frontierPeak) ∧
      (o.complete = true →
        IsGreatest {n | n ∈ (Walk.start t).frontierSizes budget clock t.slot}
          o.stats.frontierPeak) := by
  cases hok : Target.ofIndex x target with
  | error e =>
    rw [search, hok] at ho
    cases ho
  | ok t =>
    rw [search_eq_conclude hok] at ho
    obtain ⟨-, hcomplete, hstats⟩ := Walk.of_conclude_eq_ok ho
    have hiff := Walk.isGreatest_frontierPeak_iff budget clock t
    have hpeak : o.stats.frontierPeak =
        ((Walk.start t).run budget clock t.slot).1.frontierPeak := by
      rw [hstats, Walk.stats]
    rw [hpeak, hcomplete]
    exact ⟨t, _, rfl, rfl, Walk.isGreatest_highest budget clock t, hiff, fun hdone ↦
      hiff.2 (Walk.size_frontier_le_of_complete budget clock t hdone)⟩

/-- Four methods. The first has a string of its own and shares three more with the others, of whom
each has another two of the three. -/
def crossedMethods : List Method :=
  [⟨"La;", "f", 1, "V", [], [], ["h", "x", "y", "z"]⟩, ⟨"La;", "g", 1, "V", [], [], ["x", "y"]⟩,
    ⟨"La;", "k", 1, "V", [], [], ["x", "z"]⟩, ⟨"La;", "m", 1, "V", [], [], ["y", "z"]⟩]

/-- No more than two extensions. -/
abbrev twoExtensions : Budget := Budget.unlimited.withMaxBranches 2

/-- The search in these methods has an outcome with a peak of 5, and 6 branches wait at its end. -/
theorem exists_search_crossedMethods :
    ∃ o t, (build crossedMethods {}).search twoExtensions .still ⟨"La;f()V"⟩ = .ok o ∧
      Target.ofIndex (build crossedMethods {}) ⟨"La;f()V"⟩ = .ok t ∧ o.stats.frontierPeak = 5 ∧
      ((Walk.start t).run twoExtensions .still t.slot).1.highest = 6 := by
  have hrun : ((Target.ofIndex (build crossedMethods {}) ⟨"La;f()V"⟩).toOption.map fun t ↦
      let run := (Walk.start t).run twoExtensions .still t.slot
      ((run.1.conclude ⟨"La;f()V"⟩ run.2).toOption.map (·.stats.frontierPeak), run.1.highest)) =
        some (some 5, 6) := by cbv
  cases ht : Target.ofIndex (build crossedMethods {}) ⟨"La;f()V"⟩ with
  | error e =>
    rw [ht] at hrun
    cases hrun
  | ok t =>
    rw [ht] at hrun
    obtain ⟨hpeak, hhighest⟩ := Prod.mk.inj (Option.some.inj hrun)
    rw [search_eq_conclude ht]
    cases ho : ((Walk.start t).run twoExtensions .still t.slot).1.conclude ⟨"La;f()V"⟩
        ((Walk.start t).run twoExtensions .still t.slot).2 with
    | error e =>
      rw [ho] at hpeak
      cases hpeak
    | ok o =>
      rw [ho] at hpeak
      exact ⟨o, t, rfl, rfl, Option.some.inj hpeak, hhighest⟩

/-- The case of a search that is cut while it grows its first branch. -/
theorem search_frontierPeak_crossedMethods :
    ∃ o, (build crossedMethods {}).search twoExtensions .still ⟨"La;f()V"⟩ = .ok o ∧
      ∃ t w, Target.ofIndex (build crossedMethods {}) ⟨"La;f()V"⟩ = .ok t ∧
        (Walk.start t).run twoExtensions .still t.slot = (w, o.complete) ∧
        IsGreatest {n | n ∈ (Walk.start t).frontierSizes twoExtensions .still t.slot}
          (max o.stats.frontierPeak w.frontier.size) ∧
        (IsGreatest {n | n ∈ (Walk.start t).frontierSizes twoExtensions .still t.slot}
            o.stats.frontierPeak ↔ w.frontier.size ≤ o.stats.frontierPeak) ∧
        (o.complete = true →
          IsGreatest {n | n ∈ (Walk.start t).frontierSizes twoExtensions .still t.slot}
            o.stats.frontierPeak) := by
  obtain ⟨o, -, ho, -⟩ := exists_search_crossedMethods
  exact ⟨o, ho, search_frontierPeak _ twoExtensions .still _ o ho⟩

/-- **A peak that is too low.** Of the five branches that wait at the start the first is taken, and
its extensions by the next two features wait too. Then the search is cut: six branches wait, and the
outcome knows of five. -/
theorem not_isGreatest_frontierPeak_crossedMethods :
    ∃ o t, (build crossedMethods {}).search twoExtensions .still ⟨"La;f()V"⟩ = .ok o ∧
      Target.ofIndex (build crossedMethods {}) ⟨"La;f()V"⟩ = .ok t ∧ o.stats.frontierPeak = 5 ∧
      IsGreatest {n | n ∈ (Walk.start t).frontierSizes twoExtensions .still t.slot} 6 ∧
      ¬IsGreatest {n | n ∈ (Walk.start t).frontierSizes twoExtensions .still t.slot}
        o.stats.frontierPeak := by
  obtain ⟨o, t, ho, ht, hpeak, hhighest⟩ := exists_search_crossedMethods
  have hgreatest := Walk.isGreatest_highest twoExtensions .still t
  rw [hhighest] at hgreatest
  refine ⟨o, t, ho, ht, hpeak, hgreatest, fun hfive ↦ ?_⟩
  rw [hpeak] at hfive
  exact absurd (hfive.2 hgreatest.1) (by decide : ¬6 ≤ 5)

end Index

end MethodFingerprint
