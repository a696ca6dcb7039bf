import MethodFingerprint.Database.Statement

/-!
# Engines

An `Engine` carries out statements. It works on a value that stands for a database as somebody sees
it who is connected to it: what has been saved, and what the open transaction has changed and has
not saved yet. What this value is, and whether a statement succeeds, is left to the engine; what
statements do if they succeed is documented, and stated as laws where it is relied on.
-/

namespace MethodFingerprint.Database

/-- Why an engine does not do what it is told. -/
structure SqlError where
  reason : String
  deriving DecidableEq, Repr

/-- What carries out statements on databases. -/
structure Engine (Db : Type) where
  /-- Connects to a database. -/
  connect : Db → Except SqlError Db
  /-- The number that a database has for its user's purposes. -/
  version : Db → Except SqlError Int32
  /-- Carries out a statement. It may have left traces even if it fails. -/
  execute : Statement → Db → Except SqlError Unit × Db
  /-- Gets ready to put rows into columns of a table. -/
  prepare : (table : String) → (columns : List String) → Db → Except SqlError Unit
  /-- The key of the row that was added last. -/
  lastKey : Db → Int
  /-- The cells that are asked for, row by row. -/
  select : Select → Db → Except SqlError (List (List Cell))
  /-- Gives up the open transaction, if there is one; so does closing the connection. -/
  rollback : Db → Db

end MethodFingerprint.Database
