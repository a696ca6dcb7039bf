import MethodFingerprint.History.Layout

/-!
# Histories in a database

A `Backend` is what a history is kept with: an engine for the database, and codecs for what stands
in cells as JSON. Whatever it is, a history is used through three operations.

* `Backend.openHistory` connects to a database and brings it to the current version. A database of a
  later version is refused.
* `Backend.insert` adds a run with its fingerprints, all of it or nothing, and answers with its key.
* `Backend.list` gives back the runs with a target, or all runs.

An operation that fails gives up its transaction.
-/

namespace MethodFingerprint.History

open Database

/-- What a history is kept with. -/
structure Backend (Db : Type) where
  engine : Engine Db
  settings : Codec Settings
  features : Codec (List Feature)

/-- Something that is done with a database, and what becomes of the database even if it fails. -/
def Action (Db α : Type) : Type := Db → Except HistoryError α × Db

namespace Action

instance {Db : Type} : Monad (Action Db) where
  pure a d := (.ok a, d)
  bind x f d :=
    match x d with
    | (.ok a, d) => f a d
    | (.error e, d) => (.error e, d)

/-- Fails. -/
def fail {Db α : Type} (e : HistoryError) : Action Db α := fun d ↦ (.error e, d)

end Action

namespace Backend

variable {Db α : Type} (b : Backend Db)

/-! ### Single steps -/

/-- Connects to the database. -/
def connect : Action Db Unit := fun d ↦
  match b.engine.connect d with
  | .ok d => (.ok (), d)
  | .error e => (.error (.sql e), d)

/-- The version of the database. -/
def version : Action Db Int32 := fun d ↦ ((b.engine.version d).mapError .sql, d)

/-- Carries out a statement. -/
def execute (s : Statement) : Action Db Unit := fun d ↦
  let (answer, d) := b.engine.execute s d
  (answer.mapError .sql, d)

/-- Gets ready to put rows into columns of a table. -/
def prepare (table : String) (columns : List String) : Action Db Unit := fun d ↦
  ((b.engine.prepare table columns d).mapError .sql, d)

/-- The key of the row that was added last. -/
def lastKey : Action Db Int := fun d ↦ (.ok (b.engine.lastKey d), d)

/-- Writes a value as a text. -/
def encode (c : Codec α) (a : α) : Action Db String := fun d ↦ ((c.encode a).mapError .json, d)

/-- Gives up the transaction if something fails. -/
def orRollback (x : Action Db α) : Action Db α := fun d ↦
  match x d with
  | (.ok a, d) => (.ok a, d)
  | (.error e, d) => (.error e, b.engine.rollback d)

/-! ### Opening -/

/-- Brings the database to the current version. -/
def migrate : Action Db Unit := do
  let found ← b.version
  if currentVersion < found then
    .fail (.unsupportedVersion found firstVersion currentVersion)
  else if found < 1 then
    migration.forM b.execute

/-- **Opens a history.** -/
def openHistory : Action Db Unit := do
  b.connect
  -- what fails from here on closes the connection
  b.orRollback b.migrate

/-! ### Adding runs -/

/-- Adds a row; answers with its key. -/
def insertRow (table : String) (values : Row) : Action Db Int := do
  b.execute (.edit (.insert table values))
  b.lastKey

/-- Adds the row of a fingerprint. -/
def addFingerprint (run : Int) (f : RankedFingerprint) : Action Db Unit := do
  let features ← encode b.features f.features
  b.execute (.edit (.insert "fingerprints" (f.cells run features)))

/-- Adds the rows of a run; answers with its key. -/
def addRun (r : Run) : Action Db Int := do
  let settings ← encode b.settings r.settings
  let id ← b.insertRow "runs" (r.cells settings)
  b.prepare "fingerprints" RankedFingerprint.columns
  r.fingerprints.forM (b.addFingerprint id)
  return id

/-- **Adds a run** in a transaction of its own; answers with its key. -/
def insert (r : Run) : Action Db Int := do
  b.execute .begin
  b.orRollback do
    let id ← b.addRun r
    b.execute .commit
    return id

/-! ### Listing runs -/

/-- The cells that are asked for. -/
def select (s : Select) (d : Db) : Except HistoryError (List (List Cell)) :=
  (b.engine.select s d).mapError .sql

/-- The fingerprints of the run with a key. -/
def fingerprintsOf (run : Int) (d : Db) : Except HistoryError (List RankedFingerprint) := do
  let rows ← b.select (fingerprintQuery run) d
  rows.mapM (fingerprintOfCells b.features)

/-- The run with a heading. -/
def runOf (h : Heading) (d : Db) : Except HistoryError Run := do
  let settings ← (b.settings.decode h.settings).mapError .json
  let fingerprints ← b.fingerprintsOf h.id d
  return ⟨⟨h.target⟩, h.corpusHash, settings, .ofName h.strategy, h.complete != 0, h.startedAt,
    h.finishedAt, fingerprints⟩

/-- **Lists the runs** with a target, or all runs. The rows are read before what is in them. -/
def list (target : Option MethodId) (d : Db) : Except HistoryError (List Run) := do
  let rows ← b.select (runQuery target) d
  let headings ← rows.mapM Heading.ofCells
  headings.mapM fun h ↦ b.runOf h d

/-- A history in the databases of an engine. -/
def ofEngine (engine : Engine Db) : Backend Db where
  engine
  settings := .ofJson Settings.json Settings.ofDatum
  features := .ofJson RankedFingerprint.featuresJson RankedFingerprint.readFeatures

end Backend

end MethodFingerprint.History
