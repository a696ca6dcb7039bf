import MethodFingerprint.Database.Engine
import MethodFingerprint.Document.Codec
import MethodFingerprint.History.Run

/-!
# How a history is laid out

A history keeps runs in two tables of a database, one of runs and one of their fingerprints. The
**version** of the database says how they are laid out; without tables it is 0, and `migration`
leads from there to the current version, in one transaction.

Settings and features stand in their cells as JSON texts, ranks as signed numbers of 64 bits. A run
is asked for in two steps: the rows of runs by rising keys, and for each of them the rows of its
fingerprints by rising **signed** ranks.
-/

namespace MethodFingerprint

open Database

/-! ### Versions -/

namespace History

/-- The first version that is known: that of a database without tables. -/
def firstVersion : Int32 := 0

/-- The version of the tables described here. -/
def currentVersion : Int32 := 1

/-- Why a history cannot be used. -/
inductive HistoryError where
  | sql (error : SqlError)
  | json (error : JsonError)
  | unsupportedVersion (found minSupported maxSupported : Int32)
  deriving DecidableEq, Repr

namespace HistoryError

/-- The error in words. -/
def message : HistoryError → String
  | sql e => "SQLite error: " ++ e.reason
  | json e => "Stored JSON error: " ++ e.reason
  | unsupportedVersion found minSupported maxSupported =>
    "Unsupported schema version " ++ toString found.toInt ++ "; supported range is " ++
      toString minSupported.toInt ++ "..=" ++ toString maxSupported.toInt

/-- A cell does not hold what it should. -/
def mismatch : HistoryError := sql ⟨"a column has another type than expected"⟩

end HistoryError

/-! ### Tables -/

/-- The table of runs. -/
def runLayout : Layout where
  key := "id"
  columns :=
    [{ name := "target", kind := .text },
      { name := "corpus_hash", kind := .text, required := false },
      { name := "settings", kind := .text },
      { name := "strategy", kind := .text },
      { name := "complete", kind := .integer },
      { name := "started_at", kind := .text },
      { name := "finished_at", kind := .text }]

/-- The table of fingerprints. -/
def fingerprintLayout : Layout where
  key := "id"
  columns :=
    [{ name := "run_id", kind := .integer, references := some "runs" },
      { name := "rank", kind := .integer },
      { name := "features", kind := .text },
      { name := "pattern", kind := .text }]

/-- **The statements that set a history up.** -/
def migration : List Statement :=
  [.begin,
    .edit (.createTable "runs" runLayout),
    .edit (.createIndex "runs_target" "runs" "target"),
    .edit (.createTable "fingerprints" fingerprintLayout),
    .edit (.setVersion 1),
    .commit]

end History

/-! ### Rows -/

/-- The cells of a run, with its settings as a text. -/
def Run.cells (r : Run) (settings : String) : Row :=
  [("target", .text r.target.text), ("corpus_hash", .ofOption r.corpusHash),
    ("settings", .text settings), ("strategy", .text r.strategy.name),
    ("complete", .ofBool r.complete), ("started_at", .text r.startedAt),
    ("finished_at", .text r.finishedAt)]

namespace RankedFingerprint

/-- The columns of a fingerprint. -/
def columns : List String := ["run_id", "rank", "features", "pattern"]

/-- The cells of a fingerprint of the run with a key, with its features as a text. -/
def cells (run : Int) (f : RankedFingerprint) (features : String) : Row :=
  [("run_id", .integer run), ("rank", .integer f.rank.toInt64.toInt), ("features", .text features),
    ("pattern", .text f.pattern)]

end RankedFingerprint

namespace History

/-! ### Reading rows -/

/-- The runs with a target, or all runs, without their fingerprints. -/
def runQuery (target : Option MethodId) : Select where
  columns :=
    ["id", "target", "corpus_hash", "settings", "strategy", "complete", "started_at",
      "finished_at"]
  table := "runs"
  condition := target.map fun m ↦ ("target", .text m.text)
  orderBy := "id"

/-- The fingerprints of the run with a key. -/
def fingerprintQuery (run : Int) : Select where
  columns := ["rank", "features", "pattern"]
  table := "fingerprints"
  condition := some ("run_id", .integer run)
  orderBy := "rank"

/-- What a cell holds, if it is what it should be. -/
def required {α : Type} : Option α → Except HistoryError α
  | some a => .ok a
  | none => .error .mismatch

/-- A run without its fingerprints, as read from its row. The settings are still a text. -/
structure Heading where
  id : Int
  target : String
  corpusHash : Option String
  settings : String
  strategy : String
  complete : Int
  startedAt : String
  finishedAt : String

/-- Reads the cells of a run. -/
def Heading.ofCells : List Cell → Except HistoryError Heading
  | [id, target, corpusHash, settings, strategy, complete, startedAt, finishedAt] => do
    let id ← required id.integer?
    let target ← required target.text?
    let corpusHash ← required corpusHash.optionalText?
    let settings ← required settings.text?
    let strategy ← required strategy.text?
    let complete ← required complete.integer?
    let startedAt ← required startedAt.text?
    let finishedAt ← required finishedAt.text?
    return ⟨id, target, corpusHash, settings, strategy, complete, startedAt, finishedAt⟩
  | _ => .error .mismatch

/-- Reads the cells of a fingerprint. -/
def fingerprintOfCells (features : Codec (List Feature)) :
    List Cell → Except HistoryError RankedFingerprint
  | [rank, tokens, pattern] => do
    let rank ← required rank.integer?
    let tokens ← required tokens.text?
    let pattern ← required pattern.text?
    let features ← (features.decode tokens).mapError .json
    return ⟨(Int64.ofInt rank).toUInt64, features, pattern⟩
  | _ => .error .mismatch

end History

end MethodFingerprint
