import MethodFingerprint.History.Run
import MethodFingerprint.Search.Notice
import MethodFingerprint.Session

/-!
# Reports

A report is what a search on a snapshot comes to: the first fingerprints it found, ranked from 1 on
and rendered as patterns, under the settings that were in force. Both strategies end in a `Finding`,
and `Snapshot.report` makes a report of it.
-/

namespace MethodFingerprint

/-- What a search found, whatever its strategy. -/
structure Finding where
  strategy : Strategy
  fingerprints : List Fingerprint
  complete : Bool
  /-- How much work it was, if that has been counted. -/
  stats : Option SearchStats

namespace Finding

/-- What the exhaustive search found. -/
def ofOutcome (o : Outcome) : Finding := ⟨.exhaustive, o.fingerprints, o.complete, some o.stats⟩

/-- What the greedy search found. -/
def ofGreedy (f : Fingerprint) : Finding := ⟨.greedy, [f], true, none⟩

/-- The notices of what was found. -/
def notices (f : Finding) (target : MethodId) : List String :=
  match f.stats with
  | some stats =>
    if f.complete then []
    else [SearchError.exhaustedNotice target stats.branches f.fingerprints.length]
  | none => []

/-- At most so many of the fingerprints, the first ones. -/
def shown (f : Finding) (limit : Option Nat) : List Fingerprint :=
  match limit with
  | none => f.fingerprints
  | some n => f.fingerprints.take n

end Finding

/-- A search with its fingerprints ranked and rendered. -/
structure Report where
  target : MethodId
  strategy : Strategy
  settings : Settings
  complete : Bool
  stats : Option SearchStats
  fingerprints : List RankedFingerprint
  deriving DecidableEq

namespace Snapshot

/-- Looks for fingerprints with a strategy. A budget limits the exhaustive one only. -/
def find (s : Snapshot) (strategy : Strategy) (budget : Budget) (clock : Clock)
    (target : MethodId) : Except SearchError Finding :=
  match strategy with
  | .exhaustive => (s.solve budget clock target).map .ofOutcome
  | .greedy => (s.solveGreedy target).map .ofGreedy

/-- A fingerprint of a method with its rank and its pattern. -/
def ranked (s : Snapshot) (target : MethodId) (rank : Nat) (f : Fingerprint) :
    Except UnknownMethod RankedFingerprint :=
  (s.render target f).map fun rendered ↦ ⟨.ofNat rank, f.toList, rendered.text⟩

/-- **The report of what was found** for a method, cut at a limit. -/
def report (s : Snapshot) (target : MethodId) (limit : Option Nat) (f : Finding) :
    Except UnknownMethod Report :=
  (((f.shown limit).zipIdx 1).mapM fun p ↦ s.ranked target p.2 p.1).map
    (⟨target, f.strategy, s.settings, f.complete, f.stats, ·⟩)

end Snapshot

namespace SearchStats

/-- The work with the time it took, in nanoseconds. -/
def json (s : SearchStats) (elapsed : Nat) : Json :=
  .ofFields [("branches", .ofNat s.branches), ("depth", .ofNat s.depth),
    ("frontier_peak", .ofNat s.frontierPeak),
    ("elapsed", .ofFields [("secs", .ofNat (elapsed / 1000000000)),
      ("nanos", .ofNat (elapsed % 1000000000))])]

end SearchStats

namespace Report

/-- A report with all its fields; `elapsed` is how long the search took, in nanoseconds. -/
def json (r : Report) (elapsed : Nat) : Json :=
  .ofFields [("target", .ofString r.target.text), ("strategy", .ofString r.strategy.name),
    ("settings", r.settings.json), ("complete", .bool r.complete),
    ("stats", .ofOption (·.json elapsed) r.stats),
    ("fingerprints", .array (r.fingerprints.map RankedFingerprint.json))]

/-- The report as it is kept in a history. -/
def run (r : Report) (corpusHash startedAt finishedAt : String) : Run where
  target := r.target
  corpusHash := some corpusHash
  settings := r.settings
  strategy := r.strategy
  complete := r.complete
  startedAt := startedAt
  finishedAt := finishedAt
  fingerprints := r.fingerprints

end Report

end MethodFingerprint
