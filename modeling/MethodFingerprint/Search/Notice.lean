import MethodFingerprint.Search.Outcome

/-!
# What is reported beside an answer

Building an index and searching may come upon something that the caller should be told although it
changes no answer: a record that was replaced, a method that cannot be singled out, a search that
was cut short. These **notices** are functions of the index and of the answer.
-/

namespace MethodFingerprint

namespace Index

/-- One notice for every replaced record, in the order of the records. -/
def notices (x : Index) : List String :=
  x.repeated.toList.map fun id ↦ "Duplicate method id " ++ id.text ++ "; keeping the later record"

end Index

namespace SearchError

/-- The notice of a search that a limit cut short. -/
def exhaustedNotice (target : MethodId) (branches found : Nat) : String :=
  "Search budget exhausted for " ++ target.text ++ " after " ++ toString branches ++
    " branch(es); " ++ toString found ++ " fingerprint(s) found"

/-- The notices of a search without an answer. -/
def notices : SearchError → List String
  | indistinguishable target _ colliding =>
    ("Could not distinguish " ++ target.text ++ " from " ++ toString colliding.length ++
      " other method(s) with current settings") :: colliding.map fun id ↦ " - " ++ id.text
  | exhausted target branches => [exhaustedNotice target branches 0]
  | notFound _ | noFeatures _ => []

end SearchError

namespace Outcome

/-- The notices of a search with an answer. -/
def notices (o : Outcome) : List String :=
  if o.complete then []
  else [SearchError.exhaustedNotice o.target o.stats.branches o.fingerprints.length]

end Outcome

end MethodFingerprint
