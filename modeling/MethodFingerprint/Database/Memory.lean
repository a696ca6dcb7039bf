import MethodFingerprint.Database.Contents
import MethodFingerprint.Database.Engine

/-!
# Databases in memory

A `Memory` is a database that is nothing but its contents: those that are saved and, while a
transaction is open, those that it has made of them. `Memory.engine` carries out statements on it.
Keys count up from 1, and rows whose order is left open stay in the order of their keys.
-/

namespace MethodFingerprint.Database

namespace Cell

/-- Cells are sorted by the kind of what they hold. -/
def rank : Cell → Nat
  | nothing => 0
  | integer _ => 1
  | real _ => 2
  | text _ => 3
  | blob _ => 4

/-- Whole numbers are sorted among each other. -/
def number : Cell → Int
  | integer n => n
  | _ => 0

end Cell

/-- Whether a row may stand before another in a list that is sorted by a column. -/
def isNotAfter (column : String) (a b : Row) : Bool :=
  let a := cellOf a column
  let b := cellOf b column
  a.rank < b.rank || (a.rank == b.rank && a.number ≤ b.number)

/-- A database in memory. -/
structure Memory where
  saved : Contents := {}
  /-- What the open transaction has made of the contents. -/
  working : Option Contents := none
  /-- The key of the row that was added last. -/
  lastKey : Int := 0
  deriving DecidableEq, Repr

namespace Memory

/-- What is seen of a database. -/
def seen (m : Memory) : Contents := m.working.getD m.saved

/-- Replaces what is seen; without a transaction, this is saved at once. -/
def replace (m : Memory) (c : Contents) : Memory :=
  match m.working with
  | none => { m with saved := c }
  | some _ => { m with working := some c }

/-- Adds a row to a table under the next key. -/
def insert (m : Memory) (name : String) (t : Table) (values : Row) : Memory :=
  { m.replace (m.seen.put name (.table (t.add (t.lastKey + 1) values))) with
    lastKey := t.lastKey + 1 }

/-- Carries out an edit. -/
def edit (m : Memory) : Edit → Except SqlError Memory
  | .createTable name layout =>
    if m.seen.takesTable name then .ok (m.replace (m.seen.withTable name layout))
    else .error ⟨"there is already an index named " ++ name⟩
  | .createIndex name table column =>
    if m.seen.takesIndex name table column then
      .ok (m.replace (m.seen.withIndex name table column))
    else .error ⟨"there can be no index " ++ name ++ " on " ++ table ++ "." ++ column⟩
  | .setVersion version => .ok (m.replace { m.seen with version })
  | .insert name values =>
    match m.seen.object name with
    | some (.table t) =>
      if t.layout.takes values && m.seen.hasReferences t.layout values then
        .ok (m.insert name t values)
      else .error ⟨"constraint failed: " ++ name⟩
    | _ => .error ⟨"no such table: " ++ name⟩

/-- Carries out a statement. One that fails leaves everything as it is. -/
def execute (s : Statement) (m : Memory) : Except SqlError Unit × Memory :=
  match s with
  | .begin =>
    match m.working with
    | none => (.ok (), { m with working := some m.saved })
    | some _ => (.error ⟨"cannot start a transaction within a transaction"⟩, m)
  | .edit x =>
    match m.edit x with
    | .ok m => (.ok (), m)
    | .error e => (.error e, m)
  | .commit =>
    match m.working with
    | none => (.error ⟨"cannot commit - no transaction is active"⟩, m)
    | some c => (.ok (), { m with saved := c, working := none })

/-- Gets ready to put rows into columns of a table. -/
def prepare (table : String) (columns : List String) (m : Memory) : Except SqlError Unit :=
  match m.seen.object table with
  | some (.table t) =>
    if columns.all fun column ↦ (t.layout.kind? column).isSome then .ok ()
    else .error ⟨"no such column in " ++ table⟩
  | _ => .error ⟨"no such table: " ++ table⟩

/-- The cells that are asked for. -/
def select (s : Select) (m : Memory) : Except SqlError (List (List Cell)) :=
  match m.seen.object s.table with
  | some (.table t) =>
    if s.fits t.layout then
      let picked := (t.rows.filter s.picks).mergeSort (isNotAfter s.orderBy)
      .ok (picked.map fun row ↦ s.columns.map (cellOf row))
    else .error ⟨"no such column in " ++ s.table⟩
  | _ => .error ⟨"no such table: " ++ s.table⟩

/-- The path of a database that is not kept. -/
def unkeptPath : String := ":memory:"

/-- **Carries out statements in memory.** -/
def engine : Engine Memory where
  connect m := .ok { m with working := none }
  version m := .ok m.seen.version
  execute := execute
  prepare := prepare
  lastKey := lastKey
  select := select
  rollback m := { m with working := none }

end Memory

end MethodFingerprint.Database
