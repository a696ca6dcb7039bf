import MethodFingerprint.Database.Cell

/-!
# Statements

What a database is told. A `Statement` begins or ends a transaction or asks for an `Edit`; a
`Select` asks for rows. Tables and indices are named alike, so that no two of them have one name;
names that differ in the case of letters only are one name and are given in small letters.
-/

namespace MethodFingerprint.Database

/-! ### Tables as they are declared -/

/-- A column besides the key. -/
structure Column where
  name : String
  kind : Kind
  /-- Whether every row must have something there. -/
  required : Bool := true
  /-- The table whose keys stand in the column. A row goes when the row with its key goes. -/
  references : Option String := none
  deriving DecidableEq, Repr

/-- How a table is laid out. The key is a whole number that the database gives to a row, and that it
never gives again. -/
structure Layout where
  key : String
  columns : List Column
  deriving DecidableEq, Repr

/-- A row: its cells under the names of their columns. -/
abbrev Row := List (String × Cell)

/-- The cell of a row in a column. -/
def cellOf (row : Row) (column : String) : Cell := (row.lookup column).getD .nothing

/-- Whether a column takes a cell as it is. -/
def Column.takes (c : Column) (cell : Cell) : Bool :=
  cell.kind? == some c.kind || (cell == .nothing && !c.required)

namespace Layout

/-- The names of the columns, the key first. -/
def names (l : Layout) : List String := l.key :: l.columns.map (·.name)

/-- Whether cells can be put into a table as they are: one for each column besides the key, in
order. -/
def takes (l : Layout) (values : Row) : Bool :=
  values.map (·.1) == l.columns.map (·.name) &&
    (l.columns.zip values).all fun p ↦ p.1.takes p.2.2

/-- The kind of a column, the key included. -/
def kind? (l : Layout) (column : String) : Option Kind :=
  if column = l.key then some .integer else (l.columns.find? (·.name == column)).map (·.kind)

end Layout

/-! ### Statements -/

/-- A change of what is kept. -/
inductive Edit where
  /-- Creates a table unless there is one of the name. -/
  | createTable (name : String) (layout : Layout)
  /-- Creates an index on a column unless there is one of the name. -/
  | createIndex (name table column : String)
  /-- Sets the number that a database has for its user's purposes. -/
  | setVersion (version : Int32)
  /-- Adds a row under a key that no row has had. -/
  | insert (table : String) (values : Row)
  deriving DecidableEq, Repr

/-- Something that a database is told to do. -/
inductive Statement where
  | begin
  | edit (x : Edit)
  | commit
  deriving DecidableEq, Repr

/-- A question for the cells of some rows: in these columns, of the rows with a cell, and sorted by
a column. -/
structure Select where
  columns : List String
  table : String
  condition : Option (String × Cell) := none
  orderBy : String
  deriving DecidableEq, Repr

namespace Select

/-- Whether a row is asked for. -/
def picks (s : Select) (row : Row) : Bool :=
  s.condition.all fun p ↦ cellOf row p.1 == p.2

/-- Whether a question can be put to a table: the table has the columns, and the cell that rows are
picked by is of the kind of its column. -/
def fits (s : Select) (l : Layout) : Bool :=
  (s.orderBy :: s.columns).all (fun column ↦ (l.kind? column).isSome) &&
    s.condition.all fun p ↦ p.2.kind?.isSome && l.kind? p.1 == p.2.kind?

end Select

end MethodFingerprint.Database
