import MethodFingerprint.CommandLine.Failure
import MethodFingerprint.CommandLine.Output
import MethodFingerprint.Corpus
import MethodFingerprint.History.Backend
import MethodFingerprint.Search.Notice

/-!
# Running commands

A command needs a few things from outside: files, databases, the time, and somebody to carry out a
search while watching the clock. They are gathered in `Surroundings`, over any monad and any kind of
database, so that the same definition runs in the world and in a directory that is kept in memory.

A configuration is loaded before the corpus, and a history is opened only when there is a report to
record. Showing a history never creates one.
-/

namespace MethodFingerprint

/-- The version of the program. -/
def version : String := "0.1.0"

namespace CommandLine

/-- What commands need from outside. -/
structure Surroundings (m : Type → Type) (Db : Type) where
  /-- The contents of the file at a path. -/
  read : (path : String) → m Document.Contents
  /-- What histories are kept with. -/
  backend : History.Backend Db
  /-- The database at a path, a new one if there is no file yet. -/
  attach : (path : String) → m (Except Database.SqlError Db)
  /-- Leaves a database at a path. -/
  detach : (path : String) → Db → m (Except Database.SqlError Unit)
  /-- The time, as it is recorded. -/
  now : m String
  /-- Looks for fingerprints; also says how long that took, in nanoseconds. -/
  find : Snapshot → Strategy → Budget → MethodId → m (Except SearchError Finding × Nat)
  /-- Reports notices. -/
  notify : List String → m Unit

/-- What a run of the program ends in. -/
structure Answer where
  exitCode : UInt8
  output : String
  error : String
  deriving DecidableEq, Repr

variable {m : Type → Type} [Monad m] {Db : Type}

/-- A value or a failure. -/
def orFail {ε α : Type} (failure : ε → Failure) (e : Except ε α) : ExceptT Failure m α :=
  ExceptT.mk (pure (e.mapError failure))

namespace Surroundings

variable (s : Surroundings m Db)

/-- Loads and indexes a corpus. -/
def load (path : String) (settings : Settings) : ExceptT Failure m Snapshot := do
  let c ← orFail (.corpus path) (Corpus.load path (← s.read path))
  let snapshot := Snapshot.build 0 c.methods settings
  s.notify snapshot.index.notices
  return snapshot

/-! ### Histories -/

/-- Does something with the database at a path, and leaves there what becomes of it. -/
def perform {α : Type} (path : String) (failure : History.HistoryError → Failure)
    (x : History.Action Db α) (db : Db) : ExceptT Failure m (α × Db) := do
  let (answer, db) := x db
  let left ← s.detach path db
  let a ← orFail failure answer
  orFail (failure ∘ .sql) left
  return (a, db)

/-- Opens the history at a path. -/
def openHistory (path : String) : ExceptT Failure m Db := do
  let db ← orFail (.opening path ∘ .sql) (← s.attach path)
  let (_, db) ← s.perform path (.opening path) s.backend.openHistory db
  return db

/-- Records a report; answers with the key of the run. -/
def record (path corpus startedAt : String) (r : Report) : ExceptT Failure m Int := do
  let db ← s.openHistory path
  let bytes ← orFail (.digest corpus) (← s.read corpus)
  let run := r.run (Digest.sha256Hex bytes.toList) startedAt (← s.now)
  let (id, _) ← s.perform path .recording (s.backend.insert run) db
  return id

/-! ### Commands -/

/-- Lists the methods of a corpus. -/
def methods (asJson : Bool) (corpus : String) (filter : Option String) :
    ExceptT Failure m String := do
  let c ← orFail (.corpus corpus) (Corpus.load corpus (← s.read corpus))
  return methodsText asJson (filterIds filter c.ids)

/-- Shows the features of a method. -/
def features (asJson : Bool) (corpus : String) (target : MethodId) :
    ExceptT Failure m String := do
  let snapshot ← s.load corpus {}
  let features ← orFail .lookup (snapshot.features target)
  let rendered ← orFail .rendering (snapshot.render target features)
  s.notify rendered.notices
  return featuresText asJson target features rendered.text

/-- Solves a method and records the run if that is asked for. -/
def solve (asJson : Bool) (o : SolveOptions) : ExceptT Failure m String := do
  let startedAt ← s.now
  let file ← o.config.mapM fun path ↦ return (path, ← s.read path)
  let config ← orFail .config (Config.resolve file o.overrides)
  let snapshot ← s.load o.corpus config.settings
  let (found, elapsed) ← s.find snapshot o.strategy config.budget o.target
  s.notify (match found with
    | .ok f => f.notices o.target
    | .error e => e.notices)
  let found ← orFail (.search o.strategy o.target) found
  let report ← orFail .rendering (snapshot.report o.target o.limit found)
  let recorded ← o.record.mapM fun path ↦
    return (← s.record path o.corpus startedAt report, path)
  return reportText asJson report elapsed recorded

/-- Lists the runs of a history. -/
def history (asJson : Bool) (path : String) (target : Option MethodId) :
    ExceptT Failure m String := do
  match ← s.read path with
  | .error .notFound | .error .notDirectory | .error .isDirectory => throw (.noHistory path)
  | _ =>
    let db ← s.openHistory path
    let runs ← orFail .listing (s.backend.list target db)
    return historyText asJson runs

/-- Carries out a request. -/
def execute (r : Request) : ExceptT Failure m String :=
  match r.command with
  | .methods corpus filter => s.methods r.asJson corpus filter
  | .features corpus target => s.features r.asJson corpus target
  | .solve o => s.solve r.asJson o
  | .history path target => s.history r.asJson path target

end Surroundings

/-! ### The program -/

/-- How the program is used. -/
def usage : String := textOfLines
  ["Find minimal feature combinations that identify a method.", "",
    "Usage: dex-fingerprint [--verbose | --quiet] <command> [options]", "", "Commands:",
    "  methods  --corpus FILE [--filter TEXT] [--json]",
    "  features --corpus FILE --method ID [--json]",
    "  solve    --corpus FILE --method ID [--config FILE] [--no-return-type] [--no-parameters]",
    "           [--no-strings] [--no-access-flags] [--max-branches N] [--timeout-ms N] [--greedy]",
    "           [--limit N] [--json] [--record FILE]",
    "  history  --db FILE [--method ID] [--json]"]

namespace Stop

/-- The answer to words that are not a command. -/
def answer : Stop → Answer
  | misuse => ⟨2, "", usage⟩
  | help => ⟨0, usage, ""⟩
  | version => ⟨0, "dex-fingerprint " ++ MethodFingerprint.version ++ "\n", ""⟩

end Stop

/-- **Runs the program** on the words of a command line. -/
def run (s : Surroundings m Db) (words : List String) : m Answer := do
  match Request.ofWords words with
  | .error stop => return stop.answer
  | .ok request =>
    match ← (s.execute request).run with
    | .ok output => return ⟨0, output, ""⟩
    | .error failure => return ⟨1, "", failure.text⟩

end CommandLine

end MethodFingerprint
