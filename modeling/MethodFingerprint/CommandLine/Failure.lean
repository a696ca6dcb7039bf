import MethodFingerprint.Config
import MethodFingerprint.Digest
import MethodFingerprint.History.Layout
import MethodFingerprint.Report

/-!
# Failures of commands

A command that fails says what it was doing and then the **causes**, the nearest first. A single
cause is indented; several are numbered. A cause of several lines is indented as a whole.
-/

namespace MethodFingerprint.CommandLine

/-- Why a command fails. -/
inductive Failure where
  | corpus (path : String) (error : Document.LoadError)
  | config (error : Config.Unresolved)
  | lookup (error : UnknownMethod)
  | search (strategy : Strategy) (target : MethodId) (error : SearchError)
  | rendering (error : UnknownMethod)
  /-- There is no history at the path, and none is to be created. -/
  | noHistory (path : String)
  | opening (path : String) (error : History.HistoryError)
  | listing (error : History.HistoryError)
  | recording (error : History.HistoryError)
  | digest (path : String) (failure : Document.ReadFailure)
  deriving DecidableEq, Repr

/-- The causes of failing to load a document. -/
def causesOfLoad (e : Document.LoadError) : List String :=
  match e with
  | .unsupportedFormat _ => [e.message]
  | .unreadable _ failure => [e.message, failure.message]
  | .malformed _ _ => [e.message, "the document does not have the expected form"]

/-- The causes of failing to use a history. -/
def causesOfHistory (e : History.HistoryError) : List String :=
  match e with
  | .sql error => [e.message, error.reason]
  | .json error => [e.message, error.reason]
  | .unsupportedVersion _ _ _ => [e.message]

namespace Failure

/-- What was being done. -/
def context : Failure → String
  | corpus path _ => "Failed to load corpus from " ++ path
  | config e => e.context
  | lookup _ => "Failed to look up method features"
  | search .exhaustive target _ => "Fingerprint search failed for " ++ target.text
  | search .greedy target _ => "Greedy search failed for " ++ target.text
  | rendering _ => "Failed to render fingerprint"
  | noHistory path => "Run database not found at " ++ path
  | opening path _ => "Failed to open run database at " ++ path
  | listing _ => "Failed to list fingerprint runs"
  | recording _ => "Failed to record fingerprint run"
  | digest path _ => Digest.unreadableMessage path

/-- The causes, the nearest first. -/
def causes : Failure → List String
  | corpus _ e => causesOfLoad e
  | config e => causesOfLoad e.error
  | lookup e => [e.message]
  | search _ _ e => [e.message]
  | rendering e => [e.message]
  | noHistory _ => []
  | opening _ e => causesOfHistory e
  | listing e => causesOfHistory e
  | recording e => causesOfHistory e
  | digest _ failure => [failure.message]

/-- The lines of a cause, the first of them behind `mark` and the others as far in. -/
def causeText (mark : String) (cause : String) : String :=
  let indent := String.ofList (List.replicate mark.length ' ')
  mark ++ ("\n" ++ indent).intercalate ((Text.lines cause.toList).map String.ofList)

/-- The causes, each on lines of its own. -/
def causeTexts : List String → List String
  | [cause] => [causeText "    " cause]
  | causes => causes.zipIdx.map fun p ↦ causeText ("    " ++ toString p.2 ++ ": ") p.1

/-- **The text of a failure.** -/
def text (f : Failure) : String :=
  let causes := if f.causes.isEmpty then []
    else "\n\nCaused by:" :: (causeTexts f.causes).map ("\n" ++ ·)
  "Error: " ++ f.context ++ String.join causes ++ "\n"

end Failure

end MethodFingerprint.CommandLine
