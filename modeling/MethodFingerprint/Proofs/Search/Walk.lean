import MethodFingerprint.Search.Walk
import Mathlib.Logic.Relation

/-!
# What a step of the walk can do

`Walk.step` takes a branch, puts one away, or evaluates one extension. `Walk.step_cases` says this
once, with everything that is known in each case, and nothing later unfolds a step again. An
evaluated extension is either left out, which changes no more than the count, or **kept**
(`Walk.keep`): noted as met, and then filed as a hit or at the end of the frontier.

A run is a sequence of steps (`Walk.Reaches`), and `Walk.run_spec` says where a run ends: where no
step is left, or in front of an extension that the budget forbids. What every step preserves
therefore holds where a run ends, wherever the budget cuts it (`Walk.Reaches.preserves`). What is
said of a run as a whole, its length or what it passes through, is said of the list of its states
(`Walk.states`).
-/

namespace MethodFingerprint

/-- A branch grown by one more feature. -/
def Branch.grow (b : Branch) (r : Ranked) (candidates : List Slot) (later : List Ranked) : Branch :=
  ⟨b.members ++ [r], candidates, later⟩

/-- The extension of a branch by a feature, with the candidates that are left. -/
abbrev Branch.extension (b : Branch) (r : Ranked) (later : List Ranked) : Branch :=
  b.grow r (Slots.intersect b.candidates r.postings) later

namespace Walk

variable {slot : Slot} {w w' : Walk} {b : Branch} {r : Ranked} {later : List Ranked}

/-! ### Filing and keeping -/

/-- The branches that are not done with, the one at hand first. -/
def pending (w : Walk) : List Branch := w.current.toList ++ w.frontier.toList

/-- While a branch is grown it is the first of those pending. -/
theorem pending_of_current {w : Walk} {b : Branch} (h : w.current = some b) :
    w.pending = b :: w.frontier.toList := by
  rw [pending, h]
  rfl

/-- While none is grown, the branches pending are those of the frontier. -/
theorem pending_of_current_eq_none (h : w.current = none) : w.pending = w.frontier.toList := by
  rw [pending, h]
  rfl

/-- Notes a combination as met and files it. -/
def keep (w : Walk) (b : Branch) : Walk :=
  { w with
    seen := w.seen.insert (b.members.map Ranked.rank)
    depth := max w.depth b.members.length }.file b

theorem hits_file (w : Walk) (b : Branch) :
    (w.file b).hits = if b.candidates.length = 1 then b.members :: w.hits else w.hits := by
  unfold file
  split <;> rfl

theorem toList_frontier_file (w : Walk) (b : Branch) :
    (w.file b).frontier.toList =
      if b.candidates.length = 1 then w.frontier.toList else w.frontier.toList ++ [b] := by
  unfold file
  split
  · rfl
  · exact Frontier.toList_push _ _

@[simp] theorem seen_file (w : Walk) (b : Branch) : (w.file b).seen = w.seen := by
  unfold file
  split <;> rfl

@[simp] theorem current_file (w : Walk) (b : Branch) : (w.file b).current = w.current := by
  unfold file
  split <;> rfl

/-- Filing adds a branch to those pending, unless it is a hit. -/
theorem pending_file (w : Walk) (b : Branch) :
    (w.file b).pending = if b.candidates.length = 1 then w.pending else w.pending ++ [b] := by
  rw [pending, current_file, toList_frontier_file]
  split
  · rfl
  · exact (List.append_assoc _ _ _).symm

/-- **An extension is left out or kept.** It is left out when the target is no candidate any more,
when it narrows nothing down, or when it was met before. -/
theorem extend_cases (slot : Slot) (w : Walk) (b : Branch) (r : Ranked) (later : List Ranked) :
    (w.extend slot b r later = { w with branches := w.branches + 1 } ∧
      (slot ∉ (b.extension r later).candidates ∨
        (b.extension r later).candidates.length = b.candidates.length ∨
        (b.extension r later).members.map Ranked.rank ∈ w.seen)) ∨
    (w.extend slot b r later = { w with branches := w.branches + 1 }.keep (b.extension r later) ∧
      (b.extension r later).candidates.length ≠ b.candidates.length) := by
  simp only [extend]
  split
  · rename_i hslot
    exact Or.inl ⟨rfl, Or.inl (by simpa [Branch.grow] using hslot)⟩
  · split
    · rename_i hlen
      exact Or.inl ⟨rfl, Or.inr (Or.inl hlen)⟩
    · rename_i hlen
      split
      · rename_i hseen
        exact Or.inl ⟨rfl, Or.inr (Or.inr hseen)⟩
      · exact Or.inr ⟨rfl, hlen⟩

/-! ### The steps -/

/-- **Everything a step can do**: take the next branch, put one away, or evaluate an extension. -/
theorem step_cases (h : w.step slot = some w') :
    (∃ b rest, w.current = none ∧ w.frontier.toList = b :: rest.toList ∧
      w' = { w with current := some b, frontier := rest }) ∨
    (∃ b, w.current = some b ∧ b.later = [] ∧
      w' = { w with current := none, frontierPeak := max w.frontierPeak w.frontier.size }) ∨
    (∃ b r later, w.current = some b ∧ b.later = r :: later ∧
      w' = { w with current := some { b with later } }.extend slot b r later) := by
  unfold step at h
  split at h
  · rename_i hcur
    obtain ⟨⟨b, rest⟩, hpop, rfl⟩ := Option.map_eq_some_iff.1 h
    exact Or.inl ⟨b, rest, hcur, Frontier.toList_of_pop? hpop, rfl⟩
  · rename_i b hcur
    split at h
    · rename_i hlater
      exact Or.inr (Or.inl ⟨b, hcur, hlater, (Option.some.inj h).symm⟩)
    · rename_i r later hlater
      exact Or.inr (Or.inr ⟨b, r, later, hcur, hlater, (Option.some.inj h).symm⟩)

/-- **No step is left exactly when nothing is pending.** -/
theorem step_eq_none_iff : w.step slot = none ↔ w.pending = [] := by
  unfold step pending
  split
  · rename_i hcur
    rw [Option.map_eq_none_iff, Frontier.pop?_eq_none_iff, hcur]
    rfl
  · rename_i b hcur
    rw [hcur]
    split <;> simp

/-- An extension is next when the branch at hand has features left. -/
theorem exists_of_isExtending (h : w.isExtending = true) :
    ∃ b r later, w.current = some b ∧ b.later = r :: later := by
  unfold isExtending at h
  cases hcur : w.current with
  | none =>
    rw [hcur] at h
    cases h
  | some b =>
    rw [hcur] at h
    cases hlater : b.later with
    | nil => simp [hlater] at h
    | cons r later => exact ⟨b, r, later, rfl, hlater⟩

/-! ### Runs -/

/-- One state leads to another by steps. -/
def Reaches (slot : Slot) : Walk → Walk → Prop :=
  Relation.ReflTransGen fun w w' ↦ w.step slot = some w'

/-- What every step preserves holds all along. -/
theorem Reaches.preserves {p : Walk → Prop}
    (hstep : ∀ w w', w.step slot = some w' → p w → p w') (h : Reaches slot w w') (hw : p w) :
    p w' := by
  induction h with
  | refl => exact hw
  | tail _ hs ih => exact hstep _ _ hs ih

/-- The budget forbids the next extension. -/
def IsCut (budget : Budget) (clock : Clock) (w : Walk) : Prop :=
  w.isExtending = true ∧ budget.isExhausted clock w.branches = true

/-- A run stops where the budget cuts it. -/
theorem run_eq_of_isCut {budget : Budget} {clock : Clock} (h : w.IsCut budget clock) :
    w.run budget clock slot = (w, false) := by
  rw [run, if_pos (Bool.and_eq_true_iff.2 h)]

/-- A run that is not cut stops where no step is left. -/
theorem run_eq_of_step_eq_none {budget : Budget} {clock : Clock} (h : ¬w.IsCut budget clock)
    (hstep : w.step slot = none) : w.run budget clock slot = (w, true) := by
  rw [run, if_neg (mt Bool.and_eq_true_iff.1 h)]
  split
  · rfl
  · rename_i hsome
    rw [hstep] at hsome
    cases hsome

/-- A run that is not cut goes on with the next step. -/
theorem run_eq_of_step_eq_some {budget : Budget} {clock : Clock} (h : ¬w.IsCut budget clock)
    (hstep : w.step slot = some w') : w.run budget clock slot = w'.run budget clock slot := by
  rw [run, if_neg (mt Bool.and_eq_true_iff.1 h)]
  split
  · rename_i hnone
    rw [hstep] at hnone
    cases hnone
  · rename_i hsome
    rw [Option.some.inj (hstep.symm.trans hsome)]

/-- **Where a run ends**: where no step is left, or where the budget cuts it. -/
theorem run_spec (budget : Budget) (clock : Clock) (slot : Slot) (w : Walk) :
    Reaches slot w (w.run budget clock slot).1 ∧
      ((w.run budget clock slot).2 = true → (w.run budget clock slot).1.pending = []) ∧
      ((w.run budget clock slot).2 = false → (w.run budget clock slot).1.IsCut budget clock) := by
  fun_induction run budget clock slot w with
  | case1 w hcut =>
    rw [Bool.and_eq_true] at hcut
    exact ⟨.refl, fun h ↦ (by cases h), fun _ ↦ hcut⟩
  | case2 w _ hstep => exact ⟨.refl, fun _ ↦ step_eq_none_iff.1 hstep, fun h ↦ (by cases h)⟩
  | case3 w _ w' hstep ih => exact ⟨.head hstep ih.1, ih.2⟩

/-! ### The states of a run -/

/-- The states that a run goes through, the first one first. -/
def states (budget : Budget) (clock : Clock) (slot : Slot) (w : Walk) : List Walk :=
  if w.isExtending && budget.isExhausted clock w.branches then [w]
  else match _h : w.step slot with
    | none => [w]
    | some w' => w :: w'.states budget clock slot
termination_by w.weight
decreasing_by exact weight_step_lt _h

/-- A run starts with the state it is started in. -/
theorem mem_states_self (budget : Budget) (clock : Clock) (slot : Slot) (w : Walk) :
    w ∈ w.states budget clock slot := by
  rw [states]
  split
  · exact List.mem_singleton_self w
  · split
    · exact List.mem_singleton_self w
    · exact List.mem_cons_self

/-- **A run ends in one of its states.** -/
theorem run_mem_states (budget : Budget) (clock : Clock) (slot : Slot) (w : Walk) :
    (w.run budget clock slot).1 ∈ w.states budget clock slot := by
  fun_induction states budget clock slot w with
  | case1 w hcut =>
    rw [run_eq_of_isCut (Bool.and_eq_true_iff.1 hcut)]
    exact List.mem_singleton_self w
  | case2 w hcut hstep =>
    rw [run_eq_of_step_eq_none (mt Bool.and_eq_true_iff.2 hcut) hstep]
    exact List.mem_singleton_self w
  | case3 w hcut w' hstep ih =>
    rw [run_eq_of_step_eq_some (mt Bool.and_eq_true_iff.2 hcut) hstep]
    exact List.mem_cons_of_mem w ih

/-- **What a run passes through is reached by steps.** -/
theorem reaches_of_mem_states {budget : Budget} {clock : Clock}
    (h : w' ∈ w.states budget clock slot) : Reaches slot w w' := by
  fun_induction states budget clock slot w with
  | case1 w hcut =>
    obtain rfl := List.mem_singleton.1 h
    exact .refl
  | case2 w hcut hstep =>
    obtain rfl := List.mem_singleton.1 h
    exact .refl
  | case3 w hcut v hstep ih =>
    rcases List.mem_cons.1 h with rfl | hv
    · exact .refl
    · exact .head hstep (ih hv)

/-- **A run has no more steps than the weight of its first state.** -/
theorem length_states_le (budget : Budget) (clock : Clock) (slot : Slot) (w : Walk) :
    (w.states budget clock slot).length ≤ w.weight + 1 := by
  fun_induction states budget clock slot w with
  | case1 w hcut => exact Nat.succ_le_succ (Nat.zero_le _)
  | case2 w hcut hstep => exact Nat.succ_le_succ (Nat.zero_le _)
  | case3 w hcut w' hstep ih =>
    have hlt := weight_step_lt hstep
    rw [List.length_cons]
    omega

/-- A state without pending branches is not cut. -/
theorem not_isCut_of_done {budget : Budget} {clock : Clock} (h : w.pending = []) :
    ¬w.IsCut budget clock := by
  rintro ⟨hext, -⟩
  obtain ⟨b, r, later, hcur, -⟩ := exists_of_isExtending hext
  rw [pending, hcur] at h
  cases h

/-- **A run is complete unless the budget cuts it.** -/
theorem run_complete_iff (budget : Budget) (clock : Clock) (slot : Slot) (w : Walk) :
    (w.run budget clock slot).2 = true ↔ ¬(w.run budget clock slot).1.IsCut budget clock := by
  obtain ⟨-, hdone, hcut⟩ := run_spec budget clock slot w
  refine ⟨fun h ↦ not_isCut_of_done (hdone h), fun h ↦ ?_⟩
  cases hflag : (w.run budget clock slot).2 with
  | true => rfl
  | false => exact absurd (hcut hflag) h

/-- Without limits no run is cut. -/
theorem not_isCut_unlimited (clock : Clock) (w : Walk) : ¬w.IsCut .unlimited clock := by
  rintro ⟨-, hexhausted⟩
  simp [Budget.isExhausted, Budget.unlimited] at hexhausted

end Walk

end MethodFingerprint
