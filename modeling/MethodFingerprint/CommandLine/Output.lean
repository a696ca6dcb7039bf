import MethodFingerprint.CommandLine.Command
import MethodFingerprint.Report

/-!
# What commands print

Every command prints its answer either as lines of text or as one JSON value.
-/

namespace MethodFingerprint.CommandLine

/-- Lines, each with its break. -/
def textOfLines (lines : List String) : String := String.join (lines.map (· ++ "\n"))

/-- A JSON value on lines of its own. -/
def textOfJson (j : Json) : String := j.pretty ++ "\n"

/-- The lines of a list that says when it is empty. -/
def linesOrNone (lines : List String) : List String :=
  if lines.isEmpty then ["(none)"] else lines

/-! ### Methods -/

/-- The ids that a filter occurs in. -/
def filterIds (filter : Option String) (ids : List MethodId) : List MethodId :=
  match filter with
  | none => ids
  | some part => ids.filter fun id ↦ Text.occursIn part.toList id.text.toList

/-- The ids of a corpus. -/
def methodsText (asJson : Bool) (ids : List MethodId) : String :=
  if asJson then textOfJson (.ofStrings (ids.map MethodId.text))
  else textOfLines ("Methods:" :: linesOrNone (ids.map fun id ↦ "- " ++ id.text))

/-! ### Features -/

/-- The features of a method and the pattern of all of them. -/
def featuresText (asJson : Bool) (target : MethodId) (features : FeatureSet) (pattern : String) :
    String :=
  let tokens := features.toList.map Feature.token
  if asJson then
    textOfJson (.ofFields [("target", .ofString target.text), ("features", .ofStrings tokens),
      ("pattern", .ofString pattern)])
  else
    textOfLines (("Features of " ++ target.text ++ ":") :: tokens.map ("- " ++ ·) ++ ["", pattern])

/-! ### Solving -/

/-- The lines of a report. -/
def reportLines (r : Report) : List String :=
  ("Fingerprints for " ++ r.target.text ++ " (" ++ toString r.fingerprints.length ++ " found, " ++
      r.strategy.name ++ "):") ::
    (if r.complete then [] else ["Search budget exhausted; the list below may be incomplete."]) ++
    r.fingerprints.flatMap fun f ↦ ["", f.display, f.pattern]

/-- A report, with the key under which it was recorded and where. -/
def reportText (asJson : Bool) (r : Report) (elapsed : Nat) (recorded : Option (Int × String)) :
    String :=
  if asJson then textOfJson (r.json elapsed)
  else textOfLines (reportLines r ++ match recorded with
    | none => []
    | some (id, path) => ["", "Recorded run " ++ toString id ++ " in " ++ path])

/-! ### Histories -/

/-- The lines of a run. -/
def runLines (r : Run) : List String :=
  ("- " ++ r.target.text ++ " [" ++ r.strategy.name ++
      (if r.complete then "" else ", incomplete") ++ "] at " ++ r.finishedAt ++
      " (corpus: " ++ r.corpusHash.getD "(none)" ++ ", " ++
      toString r.fingerprints.length ++ " fingerprint(s))") ::
    r.fingerprints.map fun f ↦ "    " ++ f.display

/-- The runs of a history. -/
def historyText (asJson : Bool) (runs : List Run) : String :=
  if asJson then textOfJson (.array (runs.map Run.json))
  else textOfLines ("Runs:" :: linesOrNone (runs.flatMap runLines))

end MethodFingerprint.CommandLine
