import MethodFingerprint.Database.Contents
import MethodFingerprint.Database.Engine

/-!
# What engines are relied on for

An engine is taken at its documentation, which is about what databases hold and not about the values
that stand for them. A `View` says of such a value what somebody who is connected sees and what has
been saved; the two differ while a transaction is open.

* `Engine.Lawful` says what a step does **if it succeeds**, and that a step that fails saves
  nothing. None of it says that a step succeeds: a disk may be full, a file damaged or locked.
* `Engine.Reliable` adds that a step succeeds if the contents allow it, so that nothing but the
  contents stands in its way: nobody else is at the database, and there is room for what is added.

What an insertion does is said only of tables that were created here, for cells that their columns
take as they are (`Edit.Makes`). Such cells are stored unchanged, under a key above all keys that
the table has had. A question is answered from the rows that it picks, all of them and no others, in
an order in which no whole number stands behind a larger one; rows of one number, and rows without,
may come in any order (`Select.IsAnswer`).
-/

namespace MethodFingerprint.Database

/-! ### What statements do -/

/-- **What an edit makes of the contents of a database**, and the key of the row it adds. -/
inductive Edit.Makes : Edit → Contents → Contents → Int → Prop
  | createTable {c : Contents} {name : String} {key : Int} (layout : Layout)
      (h : c.takesTable name = true) :
      Makes (.createTable name layout) c (c.withTable name layout) key
  | createIndex {c : Contents} {name table column : String} {key : Int}
      (h : c.takesIndex name table column = true) :
      Makes (.createIndex name table column) c (c.withIndex name table column) key
  | setVersion {c : Contents} {key : Int} (version : Int32) :
      Makes (.setVersion version) c { c with version } key
  | insert {c : Contents} {name : String} {t : Table} {values : Row} {key : Int}
      (h : c.object name = some (.table t)) (htakes : t.layout.takes values = true)
      (hkey : t.lastKey < key) :
      Makes (.insert name values) c (c.put name (.table (t.add key values))) key
  /-- Nothing is said of a table that was not created here, nor of cells that do not fit. -/
  | insertElsewhere {c c' : Contents} {name : String} {o : Object} {values : Row} {key : Int}
      (h : c.object name = some o) (ho : ∀ t, o = .table t → t.layout.takes values = false) :
      Makes (.insert name values) c c' key

theorem Edit.Makes.of_setVersion {c c' : Contents} {version : Int32} {key : Int}
    (h : (Edit.setVersion version).Makes c c' key) : c' = { c with version } := by
  cases h
  rfl

/-- There is something of the name that rows are added to. -/
theorem Edit.Makes.exists_object {c c' : Contents} {name : String} {values : Row} {key : Int}
    (h : (Edit.insert name values).Makes c c' key) : ∃ o, c.object name = some o := by
  cases h with
  | insert ht => exact ⟨_, ht⟩
  | insertElsewhere ho => exact ⟨_, ho⟩

/-- **What an insertion makes of the contents** if its cells fit a table that was created here. -/
theorem Edit.Makes.of_insert {c c' : Contents} {name : String} {t : Table} {values : Row}
    {key : Int} (h : (Edit.insert name values).Makes c c' key)
    (ht : c.object name = some (.table t)) (htakes : t.layout.takes values = true) :
    t.lastKey < key ∧ c' = c.put name (.table (t.add key values)) := by
  cases h with
  | insert ht' _ hkey =>
    rw [ht'] at ht
    obtain rfl := Object.table.inj (Option.some.inj ht)
    exact ⟨hkey, rfl⟩
  | insertElsewhere ho hother =>
    rw [ht] at ho
    obtain rfl := Option.some.inj ho
    exact absurd htakes (by rw [hother t rfl]; exact Bool.false_ne_true)

/-- Whether a name is one of those that a database keeps to itself. -/
def isReserved (name : String) : Bool := "sqlite_".toList.isPrefixOf name.toList

/-- What an edit needs of the contents of a database. -/
def Edit.IsPossible (c : Contents) : Edit → Prop
  | createTable name layout =>
    isReserved name = false ∧ layout.names.Nodup ∧ c.takesTable name = true
  | createIndex name table column =>
    isReserved name = false ∧ c.takesIndex name table column = true
  | setVersion _ => True
  | insert name values => ∃ t, c.object name = some (.table t) ∧ t.layout.takes values = true ∧
      c.hasReferences t.layout values = true

/-- **What is answered from the rows of a table.** -/
def Select.IsAnswer (s : Select) (rows : List Row) (answer : List (List Cell)) : Prop :=
  ∃ picked : List Row, picked.Perm (rows.filter s.picks) ∧
    picked.Pairwise (fun a b ↦ ∀ m n, cellOf a s.orderBy = .integer m →
      cellOf b s.orderBy = .integer n → m ≤ n) ∧
    answer = picked.map fun row ↦ s.columns.map (cellOf row)

/-! ### Laws of engines -/

/-- What the databases of an engine hold. -/
structure View (Db : Type) where
  seen : Db → Contents
  saved : Db → Contents
  /-- No transaction is open. -/
  idle : Db → Prop

variable {Db : Type}

/-- **An engine that keeps to its documentation.** -/
structure Engine.Lawful (e : Engine Db) (v : View Db) : Prop where
  /-- Without a transaction, what is seen has been saved. -/
  seen_eq_saved {d : Db} : v.idle d → v.seen d = v.saved d
  /-- Connecting shows what has been saved. -/
  connect {d d' : Db} : e.connect d = .ok d' → v.idle d' ∧ v.saved d' = v.saved d
  version {d : Db} {version : Int32} : e.version d = .ok version → version = (v.seen d).version
  begin {d d' : Db} : e.execute .begin d = (.ok (), d') →
    ¬v.idle d' ∧ v.saved d' = v.saved d ∧ v.seen d' = v.seen d
  /-- A transaction saves what it has made of the contents. -/
  commit {d d' : Db} : e.execute .commit d = (.ok (), d') → v.idle d' ∧ v.seen d' = v.seen d
  edit {d d' : Db} {x : Edit} : e.execute (.edit x) d = (.ok (), d') →
    x.Makes (v.seen d) (v.seen d') (e.lastKey d')
  /-- Edits begin and end no transaction. -/
  idle_of_edit {d d' : Db} {x : Edit} : e.execute (.edit x) d = (.ok (), d') →
    (v.idle d' ↔ v.idle d)
  /-- What is edited in a transaction is not saved yet. -/
  saved_of_edit {d d' : Db} {x : Edit} : e.execute (.edit x) d = (.ok (), d') →
    ¬v.idle d → v.saved d' = v.saved d
  /-- A statement that fails saves nothing, whatever becomes of the transaction. -/
  saved_of_error {d d' : Db} {s : Statement} {r : SqlError} :
    e.execute s d = (.error r, d') → v.saved d' = v.saved d
  /-- A statement that fails begins no transaction. -/
  idle_of_error {d d' : Db} {s : Statement} {r : SqlError} :
    e.execute s d = (.error r, d') → v.idle d → v.idle d'
  rollback (d : Db) : v.idle (e.rollback d) ∧ v.saved (e.rollback d) = v.saved d
  select {d : Db} {s : Select} {t : Table} {answer : List (List Cell)} :
    e.select s d = .ok answer → (v.seen d).object s.table = some (.table t) →
    s.fits t.layout = true → s.IsAnswer t.rows answer

/-- What is seen when no transaction is open goes by what has been saved. -/
theorem Engine.Lawful.seen_eq {e : Engine Db} {v : View Db} {d d' : Db} (h : e.Lawful v)
    (hd : v.idle d) (hd' : v.idle d') (hsaved : v.saved d' = v.saved d) : v.seen d' = v.seen d := by
  rw [h.seen_eq_saved hd', hsaved, h.seen_eq_saved hd]

/-- **An engine that nothing but the contents stands in the way of.** -/
structure Engine.Reliable (e : Engine Db) (v : View Db) : Prop extends e.Lawful v where
  exists_connect (d : Db) : v.idle d → ∃ d', e.connect d = .ok d'
  exists_version (d : Db) : ∃ version, e.version d = .ok version
  exists_begin (d : Db) : v.idle d → ∃ d', e.execute .begin d = (.ok (), d')
  exists_commit (d : Db) : ¬v.idle d → ∃ d', e.execute .commit d = (.ok (), d')
  exists_edit (d : Db) (x : Edit) : x.IsPossible (v.seen d) →
    ∃ d', e.execute (.edit x) d = (.ok (), d')
  exists_prepare (d : Db) (name : String) (t : Table) (columns : List String) :
    (v.seen d).object name = some (.table t) →
    (∀ column ∈ columns, (t.layout.kind? column).isSome) → e.prepare name columns d = .ok ()
  exists_select (d : Db) (s : Select) (t : Table) :
    (v.seen d).object s.table = some (.table t) → s.fits t.layout = true →
    ∃ answer, e.select s d = .ok answer

end MethodFingerprint.Database
