import MethodFingerprint.Search.Target

/-!
# One minimal fingerprint, quickly

`Index.greedyFingerprint` covers and then thins out. It takes, again and again, the feature that
leaves the fewest candidates, the best ranked one of several, until only the target is left. Then it
goes back over the features it took, the last one first, and drops every one the others can do
without. The result singles the target out and none of its features can be spared; a smaller
fingerprint may exist.
-/

namespace MethodFingerprint

namespace Greedy

/-- The feature that leaves the fewest candidates, with those candidates. -/
def best? (remaining : List Slot) : List Ranked → Option (Ranked × List Slot)
  | [] => none
  | r :: rest =>
    let narrowed := Slots.intersect remaining r.postings
    match best? remaining rest with
    | none => some (r, narrowed)
    | some (r', narrowed') =>
      if narrowed'.length < narrowed.length then some (r', narrowed') else some (r, narrowed)

theorem mem_of_best? {remaining narrowed : List Slot} {unpicked : List Ranked} {r : Ranked}
    (h : best? remaining unpicked = some (r, narrowed)) : r ∈ unpicked := by
  induction unpicked generalizing r narrowed with
  | nil => simp [best?] at h
  | cons s rest ih =>
    simp only [best?] at h
    split at h
    · obtain ⟨rfl, -⟩ := Prod.mk.inj (Option.some.inj h)
      exact List.mem_cons_self
    · rename_i r' narrowed' hb
      split at h
      · obtain ⟨rfl, -⟩ := Prod.mk.inj (Option.some.inj h)
        exact List.mem_cons_of_mem _ (ih hb)
      · obtain ⟨rfl, -⟩ := Prod.mk.inj (Option.some.inj h)
        exact List.mem_cons_self

/-- Takes features, latest first, until one candidate is left or no feature narrows them down any
further. The first feature is taken even if it narrows nothing down. -/
def cover (unpicked picked : List Ranked) (remaining : List Slot) : List Ranked × List Slot :=
  if remaining.length ≤ 1 && !picked.isEmpty then (picked, remaining)
  else match _h : best? remaining unpicked with
    | none => (picked, remaining)
    | some (r, narrowed) =>
      if narrowed.length = remaining.length && !picked.isEmpty then (picked, remaining)
      else cover (unpicked.erase r) (r :: picked) narrowed
termination_by unpicked.length
decreasing_by
  rw [List.length_erase_of_mem (mem_of_best? _h)]
  have := List.length_pos_of_mem (mem_of_best? _h)
  omega

/-- Drops a feature that the other kept features can do without. The last one is kept. -/
def spare (x : Index) (slot : Slot) (kept : List Ranked) (r : Ranked) : List Ranked :=
  if kept.length = 1 then kept
  else
    let trial := kept.filter (·.rank ≠ r.rank)
    if x.candidatesOf (trial.map Ranked.feature) = [slot] then trial else kept

end Greedy

namespace Index

/-- **Finds one minimal fingerprint** without enumerating them all. -/
def greedyFingerprint (x : Index) (target : MethodId) : Except SearchError Fingerprint :=
  match Target.ofIndex x target with
  | .error e => .error e
  | .ok t =>
    let (picked, remaining) := Greedy.cover t.ranked [] (List.range x.size)
    if remaining = [t.slot] then
      .ok (.ofList ((picked.foldl (Greedy.spare x t.slot) picked.reverse).map Ranked.feature))
    else
      -- unlike the checks, in slot order
      let others := (x.idsOf remaining).filter (· ≠ target)
      .error (.indistinguishable target others.length others)

end Index

end MethodFingerprint
