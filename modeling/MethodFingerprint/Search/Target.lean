import MethodFingerprint.Index

/-!
# The target of a search

Before anything is searched, a method has to pass two checks: it must have features, and all of them
together must single it out, for otherwise no part of them can. `Target.ofIndex` makes the checks
and ranks the features of a method that passes, **rarest first**, ties broken by token. Both
searches start from the ranked features.
-/

namespace MethodFingerprint

/-- Why a search has no answer. -/
inductive SearchError where
  | notFound (target : MethodId)
  | noFeatures (target : MethodId)
  /-- Other methods have every feature of the target: their number and their ids. -/
  | indistinguishable (target : MethodId) (count : Nat) (colliding : List MethodId)
  /-- A limit stopped the search before it found anything. -/
  | exhausted (target : MethodId) (branches : Nat)
  deriving DecidableEq, Repr

namespace SearchError

/-- The error in words. -/
def message : SearchError → String
  | notFound target => (UnknownMethod.mk target).message
  | noFeatures target => "Method " ++ target.text ++ " has no features under the current settings"
  | indistinguishable target count _ =>
    "Could not distinguish " ++ target.text ++ " from " ++ toString count ++
      " other method(s) with the current settings"
  | exhausted target branches =>
    "Search budget exhausted after " ++ toString branches ++
      " branch(es) without a fingerprint for " ++ target.text

end SearchError

/-- A feature of the target with its rank and the methods that carry it. -/
structure Ranked where
  rank : Nat
  feature : Feature
  postings : List Slot
  deriving DecidableEq, Repr

/-- A method that can be singled out, with its features ranked. -/
structure Target where
  slot : Slot
  ranked : List Ranked

namespace Target

/-- Rarer features first, features equally rare by token. -/
def rarerFirst (f g : Feature × List Slot) : Bool :=
  f.2.length < g.2.length || (f.2.length == g.2.length && !decide (g.1 < f.1))

/-- The features of a method in rank order. -/
def rank (x : Index) (features : FeatureSet) : List Ranked :=
  ((features.toList.map fun f ↦ (f, x.candidates f)).mergeSort rarerFirst).zipIdx.map
    fun p ↦ ⟨p.2, p.1.1, p.1.2⟩

/-- The ids at the given slots but one, ascending. -/
def colliding (x : Index) (slot : Slot) (slots : List Slot) : List MethodId :=
  (x.idsOf (slots.filter (· ≠ slot))).mergeSort fun a b ↦ !decide (b < a)

/-- **Checks and ranks a target.** -/
def ofIndex (x : Index) (target : MethodId) : Except SearchError Target :=
  match x.slot target with
  | .error e => .error (.notFound e.id)
  | .ok slot =>
    let features := x.featuresAt slot
    if features.isEmpty then .error (.noFeatures target)
    else
      let remaining := x.candidatesOf features.toList
      if remaining = [slot] then .ok ⟨slot, rank x features⟩
      else
        let others := colliding x slot remaining
        .error (.indistinguishable target others.length others)

end Target

end MethodFingerprint
