import MethodFingerprint.Database.Statement

/-!
# What a database holds

The `Contents` of a database are the number that it has for its user's purposes and what is in it
under names: tables, views and indices. Tables of the system's own are not listed.

Only a table that was created by an `Edit` and has nothing attached to it but indices of this kind
is known with its layout. What else there may be, in a database that somebody else has made, is kept
apart: a **foreign** table may check, change or refuse what is put into it.
-/

namespace MethodFingerprint.Database

/-- A table that was created here. -/
structure Table where
  layout : Layout
  /-- The highest key that a row has had. -/
  lastKey : Int := 0
  /-- By rising keys. -/
  rows : List Row := []
  deriving DecidableEq, Repr

/-- Adds a row under a key. -/
def Table.add (t : Table) (key : Int) (values : Row) : Table :=
  { t with lastKey := key, rows := t.rows ++ [(t.layout.key, .integer key) :: values] }

/-- What has a name in a database. -/
inductive Object where
  | table (t : Table)
  /-- A table that was made in any other way, by the columns that can be indexed. -/
  | foreign (columns : List String) (rows : List Row)
  /-- Anything else that can be read like a table. -/
  | view
  /-- An index, by its table and what it is on. -/
  | index (table column : String)
  deriving DecidableEq, Repr

namespace Object

/-- The columns that can be indexed, of an object that has indices. -/
def indexable? : Object → Option (List String)
  | table t => some t.layout.names
  | foreign columns _ => some columns
  | _ => none

/-- Whether an object is an index. -/
def isIndex : Object → Bool
  | index _ _ => true
  | _ => false

end Object

/-- What a database holds. -/
structure Contents where
  version : Int32 := 0
  objects : List (String × Object) := []
  deriving DecidableEq, Repr

namespace Contents

/-- What has a name. -/
def object (c : Contents) (name : String) : Option Object := c.objects.lookup name

/-- Puts something under a name. -/
def put (c : Contents) (name : String) (o : Object) : Contents :=
  { c with objects := (name, o) :: c.objects.filter (·.1 ≠ name) }

/-- The rows of a table, none if there is no table of the name. -/
def rows (c : Contents) (name : String) : List Row :=
  match c.object name with
  | some (.table t) => t.rows
  | some (.foreign _ rows) => rows
  | _ => []

variable {c : Contents} {name other : String} {o : Object}

@[simp] theorem object_put_self : (c.put name o).object name = some o := by
  simp [object, put]

theorem object_put_of_ne (h : other ≠ name) : (c.put name o).object other = c.object other := by
  have hfilter (l : List (String × Object)) :
      (l.filter (·.1 ≠ name)).lookup other = l.lookup other := by
    induction l with
    | nil => rfl
    | cons p l ih =>
      by_cases hp : p.1 = name
      · have hother : (other == p.1) = false := beq_false_of_ne (hp ▸ h)
        rw [List.filter_cons_of_neg (by simp [hp]), ih, List.lookup_cons, hother]
      · rw [List.filter_cons_of_pos (by simp [hp]), List.lookup_cons, List.lookup_cons, ih]
  rw [object, put, List.lookup_cons, beq_false_of_ne h, hfilter]
  rfl

/-! ### Edits -/

/-- With a table of the name, an empty one if there was none. -/
def withTable (c : Contents) (name : String) (layout : Layout) : Contents :=
  if (c.object name).isSome then c else c.put name (.table { layout })

/-- Whether a table can be asked for: no index has the name. -/
def takesTable (c : Contents) (name : String) : Bool := !(c.object name).any Object.isIndex

/-- With an index of the name. -/
def withIndex (c : Contents) (name table column : String) : Contents :=
  if (c.object name).isSome then c else c.put name (.index table column)

/-- Whether an index can be asked for: the table may have indices, and either there is an index of
the name or there is nothing of the name and the table has the column. -/
def takesIndex (c : Contents) (name table column : String) : Bool :=
  match (c.object table).bind Object.indexable? with
  | none => false
  | some columns =>
    match c.object name with
    | none => columns.contains column
    | some o => o.isIndex

/-- Whether a row refers to keys that are there. -/
def hasReferences (c : Contents) (l : Layout) (values : Row) : Bool :=
  l.columns.all fun column ↦ column.references.all fun table ↦
    match c.object table with
    | some (.table t) => t.rows.any fun row ↦ cellOf row t.layout.key == cellOf values column.name
    | _ => false

end Contents

end MethodFingerprint.Database
