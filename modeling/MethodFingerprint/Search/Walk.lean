import MethodFingerprint.Search.Budget
import MethodFingerprint.Search.Frontier
import MethodFingerprint.Search.Target
import Std.Data.HashSet

/-!
# The breadth-first walk

The walk looks for the combinations of a target's features that single it out. A **branch** is a
combination that does not yet, with the methods that still share it. It is extended by the features
ranked after its last member only, so that every combination is met once, and an extension that
narrows nothing down is dropped, since its last member could be left out. An extension that leaves
the target alone is a **hit**, any other waits at the end of the frontier: shorter combinations come
before longer ones.

A `Walk` is the state of this process and `Walk.step` one step of it, so that everything that can be
said of a run — what has been found when a limit cuts it short, how long the frontier has been — is
said of a sequence of states. A step takes the next branch, evaluates one extension, or puts a
branch away. `Walk.run` repeats steps; it ends because every step lowers `Walk.weight`.
-/

namespace MethodFingerprint

/-- A combination that several methods share. -/
structure Branch where
  /-- The members, by rising rank. -/
  members : List Ranked
  /-- The methods that carry all members, the target among them. -/
  candidates : List Slot
  /-- The features left to extend the combination with: those ranked after its last member. -/
  later : List Ranked
  deriving DecidableEq, Repr

/-- The state of a walk. -/
structure Walk where
  frontier : Frontier Branch
  /-- The branch at hand; what is left of `later` is still to be evaluated. -/
  current : Option Branch
  /-- The combinations met so far, as lists of ranks. -/
  seen : Std.HashSet (List Nat)
  /-- The combinations that single the target out, latest first. -/
  hits : List (List Ranked)
  /-- How many extensions have been evaluated. -/
  branches : Nat
  /-- The size of the largest combination kept. -/
  depth : Nat
  /-- The length of the frontier, at its longest among the times it was looked at: after the start
  and whenever a branch is put away. -/
  frontierPeak : Nat

namespace Walk

/-! ### The start -/

/-- Files a combination as a hit if it leaves one method, and at the end of the frontier if not. -/
def file (w : Walk) (b : Branch) : Walk :=
  if b.candidates.length = 1 then { w with hits := b.members :: w.hits }
  else { w with frontier := w.frontier.push b }

/-- Files every feature that the target carries as a combination of its own. -/
def seed (slot : Slot) (w : Walk) : List Ranked → Walk
  | [] => w
  | r :: later =>
    if r.postings.contains slot then
      seed slot ({ w with seen := w.seen.insert [r.rank] }.file ⟨[r], r.postings, later⟩) later
    else seed slot w later

/-- The state before anything has been filed. -/
def empty : Walk := ⟨.empty, none, ∅, [], 0, 1, 0⟩

/-- The state in which the search for a target starts. -/
def start (t : Target) : Walk :=
  let w := empty.seed t.slot t.ranked
  { w with frontierPeak := w.frontier.size }

/-! ### One step -/

/-- Evaluates the extension of a branch by a later feature. The extension is kept if the target is
still a candidate, if other candidates have gone, and if the combination is new. -/
def extend (slot : Slot) (w : Walk) (b : Branch) (r : Ranked) (later : List Ranked) : Walk :=
  let w := { w with branches := w.branches + 1 }
  let narrowed := Slots.intersect b.candidates r.postings
  if !narrowed.contains slot then w
  else if narrowed.length = b.candidates.length then w
  else
    let members := b.members ++ [r]
    let ranks := members.map Ranked.rank
    if w.seen.contains ranks then w
    else { w with seen := w.seen.insert ranks, depth := max w.depth members.length }.file
      ⟨members, narrowed, later⟩

/-- The next state, if there is anything left to do. -/
def step (slot : Slot) (w : Walk) : Option Walk :=
  match w.current with
  | none => w.frontier.pop?.map fun (b, rest) ↦ { w with current := some b, frontier := rest }
  | some b =>
    match b.later with
    | [] => some { w with current := none, frontierPeak := max w.frontierPeak w.frontier.size }
    | r :: later => some ({ w with current := some { b with later } }.extend slot b r later)

/-- Whether the next step evaluates an extension. -/
def isExtending (w : Walk) : Bool :=
  w.current.any fun b ↦ !b.later.isEmpty

/-! ### Why it ends

A branch with `k` features left to extend it with can at most lead to all their combinations, and
the steps they take are fewer than `3 * 2 ^ k`: with one feature more, the branch may be extended by
it or not, and evaluating this is a step.
-/

/-- A bound on the steps that a waiting branch takes with its extensions, by the number of features
left. -/
def stepBound : Nat → Nat
  | 0 => 2
  | k + 1 => 2 * stepBound k + 1

/-- A bound on the steps that a waiting branch and its extensions take. -/
def branchWeight (b : Branch) : Nat := stepBound b.later.length

/-- A bound on the steps that waiting branches and their extensions take. -/
def totalWeight : List Branch → Nat
  | [] => 0
  | b :: bs => branchWeight b + totalWeight bs

/-- A bound on the steps that are left. -/
def weight (w : Walk) : Nat :=
  (w.current.map fun b ↦ branchWeight b - 1).getD 0 + totalWeight w.frontier.toList

theorem two_le_stepBound (k : Nat) : 2 ≤ stepBound k := by
  induction k with
  | zero => exact Nat.le_refl 2
  | succ k ih =>
    rw [stepBound]
    omega

theorem totalWeight_append (bs bs' : List Branch) :
    totalWeight (bs ++ bs') = totalWeight bs + totalWeight bs' := by
  induction bs with
  | nil => exact (Nat.zero_add _).symm
  | cons b bs ih => rw [List.cons_append, totalWeight, totalWeight, ih, Nat.add_assoc]

theorem weight_file_le (w : Walk) (b : Branch) :
    (w.file b).weight ≤ w.weight + branchWeight b := by
  unfold file
  split
  · exact Nat.le_add_right _ _
  · simp [weight, totalWeight_append, totalWeight, Nat.add_assoc]

theorem weight_extend_le (slot : Slot) (w : Walk) (b : Branch) (r : Ranked) (later : List Ranked) :
    (w.extend slot b r later).weight ≤ w.weight + stepBound later.length := by
  simp only [extend]
  split
  · exact Nat.le_add_right _ _
  · split
    · exact Nat.le_add_right _ _
    · split
      · exact Nat.le_add_right _ _
      · exact weight_file_le _ _

/-- A branch that is taken has fewer steps left than a waiting one. -/
theorem weight_take_lt {w : Walk} {b : Branch} {rest : Frontier Branch} (hc : w.current = none)
    (hp : w.frontier.pop? = some (b, rest)) :
    weight { w with current := some b, frontier := rest } < w.weight := by
  have hk := two_le_stepBound b.later.length
  simp only [weight, hc, Frontier.toList_of_pop? hp, Option.map_some, Option.getD_some,
    Option.map_none, Option.getD_none, totalWeight, branchWeight]
  omega

theorem weight_putAway_lt {w : Walk} {b : Branch} (hc : w.current = some b) (hl : b.later = [])
    (peak : Nat) : weight { w with current := none, frontierPeak := peak } < w.weight := by
  simp only [weight, hc, hl, Option.map_some, Option.getD_some, Option.map_none,
    Option.getD_none, branchWeight, List.length_nil, stepBound]
  omega

/-- With one feature less, a branch leaves room for the branch that it is extended to. -/
theorem weight_skip_add_lt {w : Walk} {b : Branch} {r : Ranked} {later : List Ranked}
    (hc : w.current = some b) (hl : b.later = r :: later) :
    weight { w with current := some { b with later } } + stepBound later.length < w.weight := by
  have hk := two_le_stepBound later.length
  simp only [weight, hc, hl, Option.map_some, Option.getD_some, branchWeight,
    List.length_cons, stepBound]
  omega

/-- **A step lowers the weight.** -/
theorem weight_step_lt {slot : Slot} {w w' : Walk} (h : w.step slot = some w') :
    w'.weight < w.weight := by
  unfold step at h
  split at h
  · rename_i hc
    obtain ⟨⟨b, rest⟩, hp, rfl⟩ := Option.map_eq_some_iff.1 h
    exact weight_take_lt hc hp
  · rename_i b hc
    split at h
    · rename_i hl
      obtain rfl := Option.some.inj h
      exact weight_putAway_lt hc hl _
    · rename_i r later hl
      obtain rfl := Option.some.inj h
      exact Nat.lt_of_le_of_lt (weight_extend_le _ _ _ _ _) (weight_skip_add_lt hc hl)

/-! ### The whole walk -/

/-- Walks on until nothing is left to do, or until a limit forbids the next extension. Says with the
last state whether the walk is complete. -/
def run (budget : Budget) (clock : Clock) (slot : Slot) (w : Walk) : Walk × Bool :=
  if w.isExtending && budget.isExhausted clock w.branches then (w, false)
  else match _h : w.step slot with
    | none => (w, true)
    | some w' => w'.run budget clock slot
termination_by w.weight
decreasing_by exact weight_step_lt _h

end Walk

end MethodFingerprint
