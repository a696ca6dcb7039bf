import MethodFingerprint.Search.Walk

/-!
# Every minimal fingerprint

`Index.search` walks through the combinations of a target's features and answers with the **minimal
fingerprints**: the hits no other hit is a part of, smaller ones first. As the walk meets shorter
combinations before longer ones, a walk that is cut short has still met every part of what it found,
so what it reports is minimal; the outcome is then marked incomplete.
-/

namespace MethodFingerprint

/-- How much work a search did. -/
structure SearchStats where
  /-- Extensions evaluated. -/
  branches : Nat
  /-- The size of the largest combination kept. -/
  depth : Nat
  /-- The longest frontier observed. -/
  frontierPeak : Nat
  deriving DecidableEq, Repr

/-- What a search found for one target. -/
structure Outcome where
  target : MethodId
  /-- Ordered by size, then by tokens. -/
  fingerprints : List Fingerprint
  /-- Whether the search went to its end. -/
  complete : Bool
  stats : SearchStats
  deriving DecidableEq

namespace FeatureSet

/-- The sets no other of the sets is a proper part of, in the order of listing. -/
def minimal (found : List FeatureSet) : List FeatureSet :=
  (found.filter fun s ↦ !found.any s.isStrictSupersetOf).mergeSort listedBefore

end FeatureSet

namespace Walk

/-- The combinations that single the target out, in the order in which they were met. -/
def found (w : Walk) : List Fingerprint :=
  (w.hits.map fun members ↦ .ofList (members.map Ranked.feature)).reverse

/-- How much work has been done. -/
def stats (w : Walk) : SearchStats := ⟨w.branches, w.depth, w.frontierPeak⟩

/-- The outcome of a walk that ended in a state, complete or not. -/
def conclude (target : MethodId) (w : Walk) (complete : Bool) : Except SearchError Outcome :=
  let fingerprints := FeatureSet.minimal w.found
  if !complete && fingerprints.isEmpty then .error (.exhausted target w.branches)
  else .ok ⟨target, fingerprints, complete, w.stats⟩

end Walk

namespace Index

/-- **Searches the minimal fingerprints of a method** within the limits of a budget. -/
def search (x : Index) (budget : Budget) (clock : Clock) (target : MethodId) :
    Except SearchError Outcome :=
  match Target.ofIndex x target with
  | .error e => .error e
  | .ok t =>
    let (w, complete) := (Walk.start t).run budget clock t.slot
    w.conclude target complete

/-- The search without limits. -/
def minimalFingerprints (x : Index) (target : MethodId) : Except SearchError Outcome :=
  x.search .unlimited .still target

end Index

end MethodFingerprint
