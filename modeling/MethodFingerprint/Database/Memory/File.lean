import MethodFingerprint.Database.Memory
import MethodFingerprint.Document.Json.Read

/-!
# Databases in files

Where there is no other engine, a database in memory is kept in a file as a JSON text. An empty file
holds a database with nothing in it.
-/

namespace MethodFingerprint.Database

/-- An optional text as a value. -/
def jsonOfOption (s : Option String) : Json := .ofOption .ofString s

/-- A whole number as a value. -/
def jsonOfInt (n : Int) : Json := .number (String.ofList (Text.integerNumeral n))

/-- Reads a whole number. -/
def intOfJson? : Json → Option Int
  | .number s => Text.integer? s.toList
  | _ => none

/-- Reads a text. -/
def textOfJson? : Json → Option String
  | .string s => s
  | _ => none

/-- Reads a list. -/
def listOfJson? {α : Type} (read : Json → Option α) : Json → Option (List α)
  | .array items => items.mapM read
  | _ => none

namespace Cell

/-- A cell as a value. What is neither a whole number nor a text is marked as such. -/
def json : Cell → Json
  | nothing => .null
  | integer n => jsonOfInt n
  | text s => .ofString s
  | real bits => .array [.ofNat bits.toNat]
  | blob bytes => .array [.null, .array (bytes.map fun b ↦ .ofNat b.toNat)]

/-- Reads a cell. -/
def ofJson? : Json → Option Cell
  | .null => some nothing
  | .string s => s.map text
  | .array [.null, bytes] =>
    (listOfJson? intOfJson? bytes).map fun l ↦ blob (l.map fun n ↦ .ofNat n.toNat)
  | .array [bits] => (intOfJson? bits).map fun n ↦ real (.ofNat n.toNat)
  | j => (intOfJson? j).map integer

end Cell

/-- A row as a value. -/
def jsonOfRow (row : Row) : Json := .array (row.map fun p ↦ .array [.ofString p.1, p.2.json])

/-- Reads a row. -/
def rowOfJson? : Json → Option Row := listOfJson? fun
  | .array [name, cell] => return (← textOfJson? name, ← Cell.ofJson? cell)
  | _ => none

namespace Column

/-- A column as a value. -/
def json (c : Column) : Json :=
  .array [.ofString c.name, .bool (c.kind == .text), .bool c.required, jsonOfOption c.references]

/-- Reads a column. -/
def ofJson? : Json → Option Column
  | .array [name, .bool isText, .bool required, references] => do
    let references ← match references with
      | .null => some none
      | j => (textOfJson? j).map some
    return ⟨← textOfJson? name, if isText then .text else .integer, required, references⟩
  | _ => none

end Column

namespace Object

/-- What has a name, as a value. -/
def json : Object → Json
  | view => .null
  | index name column => .array [.ofString name, .ofString column]
  | foreign columns rows => .array [.ofStrings columns, .null, .array (rows.map jsonOfRow)]
  | table t => .array [.ofString t.layout.key, .array (t.layout.columns.map Column.json),
      jsonOfInt t.lastKey, .array (t.rows.map jsonOfRow)]

/-- Reads what has a name. -/
def ofJson? : Json → Option Object
  | .null => some view
  | .array [name, column] => return index (← textOfJson? name) (← textOfJson? column)
  | .array [columns, .null, rows] =>
    return foreign (← listOfJson? textOfJson? columns) (← listOfJson? rowOfJson? rows)
  | .array [key, columns, lastKey, rows] => do
    let layout : Layout := ⟨← textOfJson? key, ← listOfJson? Column.ofJson? columns⟩
    return table ⟨layout, ← intOfJson? lastKey, ← listOfJson? rowOfJson? rows⟩
  | _ => none

end Object

namespace Memory

/-- What is saved, as the contents of a file. -/
def bytes (m : Memory) : ByteArray :=
  let objects := m.saved.objects.map fun p ↦ .array [.ofString p.1, p.2.json]
  (Json.array [jsonOfInt m.saved.version.toInt, .array objects]).compact.toUTF8

/-- **The database in a file**, if that is what the file holds. -/
def ofBytes? (bytes : ByteArray) : Option Memory := do
  if bytes.isEmpty then return {}
  match ← (String.fromUTF8? bytes).bind Json.read? with
  | .array [version, objects] =>
    let version ← intOfJson? version
    let objects ← listOfJson? (fun
      | .array [name, o] => return (← textOfJson? name, ← Object.ofJson? o)
      | _ => none) objects
    return { saved := { version := .ofInt version, objects } }
  | _ => none

end Memory

end MethodFingerprint.Database
