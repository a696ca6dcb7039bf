/-!
# Limits on a search

A search may be given a limit on the number of extensions it evaluates and a limit on its duration.
The duration is the only thing in the library that depends on the outside world. It enters as a
`Clock`, the readings that a clock would give: a search is then a function of its clock, and what is
proved for every clock holds however fast the machine is.

The clock is read only when the number of evaluated extensions is a multiple of `clockInterval`.
-/

namespace MethodFingerprint

/-- The readings of a clock during one search: whether a limit of so many milliseconds has passed by
the time so many extensions have been evaluated. -/
abbrev Clock := (limitMs : Nat) → (branches : Nat) → Bool

namespace Clock

/-- A clock on which no time passes: a limit of nothing has passed from the start, and no other
limit ever does. -/
def still : Clock := fun limitMs _ ↦ limitMs == 0

end Clock

/-- The limits of a search. What is `none` is not limited. -/
structure Budget where
  /-- How many extensions may be evaluated. -/
  maxBranches : Option Nat := none
  /-- How many milliseconds the search may take. -/
  maxDurationMs : Option Nat := none
  deriving DecidableEq, Repr, Inhabited

namespace Budget

/-- No limit at all. -/
def unlimited : Budget := ⟨none, none⟩

/-- The largest limit that can be written down. -/
def maxLimit : Nat := UInt64.size - 1

/-- How many extensions are evaluated between two looks at the clock. -/
def clockInterval : Nat := 1024

/-- Limits the number of extensions. -/
def withMaxBranches (b : Budget) (maxBranches : Nat) : Budget :=
  { b with maxBranches := some maxBranches }

/-- Limits the duration, given in seconds and nanoseconds. The limit is kept in whole milliseconds
and is at most `maxLimit`. -/
def withMaxDuration (b : Budget) (seconds nanoseconds : Nat) : Budget :=
  { b with maxDurationMs := some (min (seconds * 1000 + nanoseconds / 1000000) maxLimit) }

/-- The limit on the duration in seconds and nanoseconds. -/
def maxDuration (b : Budget) : Option (Nat × Nat) :=
  b.maxDurationMs.map fun ms ↦ (ms / 1000, ms % 1000 * 1000000)

/-- Whether nothing is limited. -/
def isUnlimited (b : Budget) : Bool :=
  b.maxBranches.isNone && b.maxDurationMs.isNone

/-- Whether the search has to stop after so many extensions. -/
def isExhausted (b : Budget) (clock : Clock) (branches : Nat) : Bool :=
  b.maxBranches.any (· ≤ branches) ||
    (branches % clockInterval == 0 && b.maxDurationMs.any (clock · branches))

end Budget

end MethodFingerprint
