import MethodFingerprint.Document.Json

/-!
# Document data

Documents come in several formats, and the same field may be spelled in different ways in each. A
`Datum` is what all formats have in common: scalars, sequences, mappings, and **references** to
values that stand elsewhere in the document. A scalar does not have one type; it says how it **may
be read**, as a text, as a truth value, as a number, or as nothing.

A **record**, a value with named fields, is given as a mapping or, where the format allows it, as a
sequence of the values of its fields in order, with fields left out at the end. In a mapping, fields
that the record does not have are ignored and no field of the record may be given twice.

## References are followed while reading

A value may be reached from within itself, so references cannot be replaced by what they stand for
once and for all. They are followed when something is read behind them, and what is ignored is never
followed. Since a short document can stand for a very long one in this way, a `Source` says how many
references may be followed in all, and `Reading` keeps count.
-/

namespace MethodFingerprint

/-- Whether a scalar stands for a value, where a value may also be left out. -/
inductive Presence where
  | given
  | missing
  /-- It says of itself that it is nothing, but spells something. -/
  | contradictory
  deriving DecidableEq, Repr

/-- How a scalar may be read. -/
structure Scalar where
  text : Option String := none
  flag : Option Bool := none
  natural : Option Nat := none
  presence : Presence := .given
  /-- It may stand for a collection without items. -/
  isBlank : Bool := false
  deriving DecidableEq, Repr

/-- A value in a document. -/
inductive Datum where
  | scalar (s : Scalar)
  | sequence (items : List Datum)
  | mapping (entries : List (Datum × Datum))
  /-- The value in a slot of the document. -/
  | reference (slot : Nat)
  deriving Inhabited, Repr

namespace Datum

/-! ### Sources -/

/-- What decides on the meaning of the values in a document. -/
structure Context where
  /-- The values that can be referred to. -/
  slots : Nat → Option Datum
  /-- Whether a record may be given as the sequence of the values of its fields. -/
  recordsInOrder : Bool

/-- A document as data. -/
structure Source where
  root : Datum
  context : Context
  /-- How many references may be followed. -/
  references : Nat

/-- A computation that reads values of a document. Its state is the number of references that may
still be followed. -/
abbrev Reading (α : Type) := ReaderT Context (StateT Nat Option) α

/-- A way to read a value. -/
abbrev Reader (α : Type) := Datum → Reading α

namespace Source

/-- Reads the value of a document. -/
def read? {α : Type} (source : Source) (read : Reader α) : Option α :=
  ((read source.root source.context).run source.references).map (·.1)

end Source

/-- Follows a reference. -/
def follow : Reader Datum
  | reference slot => fun context left ↦
    match left with
    | 0 => none
    | left + 1 => (context.slots slot).map (·, left)
  | d => pure d

/-- A scalar is no reference. -/
@[simp] theorem follow_scalar (s : Scalar) : follow (.scalar s) = pure (.scalar s) := rfl

/-- A sequence is no reference. -/
@[simp] theorem follow_sequence (items : List Datum) :
    follow (.sequence items) = pure (.sequence items) := rfl

/-- A mapping is no reference. -/
@[simp] theorem follow_mapping (entries : List (Datum × Datum)) :
    follow (.mapping entries) = pure (.mapping entries) := rfl

/-! ### Reading values -/

/-- Reads a scalar in one of the ways in which it may be read. -/
def readScalar {α : Type} (read : Scalar → Option α) : Reader α := fun d ↦ do
  match ← d.follow with
  | scalar s => read s
  | _ => failure

/-- Reads a text. -/
def readText : Reader String := readScalar Scalar.text

/-- Reads a truth value. -/
def readFlag : Reader Bool := readScalar Scalar.flag

/-- Reads a number below a bound. -/
def readNatural (bound : Nat) : Reader Nat := readScalar fun s ↦ s.natural.filter (· < bound)

/-- Reads a value that need not be given. -/
def readOptional {α : Type} (read : Reader α) : Reader (Option α) := fun d ↦ do
  match ← d.follow with
  | scalar s =>
    match s.presence with
    | .given => some <$> read (scalar s)
    | .missing => return none
    | .contradictory => failure
  | d => some <$> read d

/-- Reads a sequence of values. -/
def readSequence {α : Type} (read : Reader α) : Reader (List α) := fun d ↦ do
  match ← d.follow with
  | sequence items => items.mapM read
  | scalar s => if s.isBlank then return [] else failure
  | _ => failure

/-- Reads a sequence of texts. -/
def readTexts : Reader (List String) := readSequence readText

/-! ### Reading records -/

/-- The values given for the fields of a record. -/
abbrev Fields := String → Option Datum

/-- The values of fields given in order. -/
def fieldsInOrder (names : List String) (items : List Datum) : Fields :=
  fun name ↦ (names.zip items).lookup name

/-- Whether none of the given names occurs more than once. -/
def hasDistinctNames (names : List String) (entries : List (String × Datum)) : Bool :=
  names.all fun name ↦ (entries.filter (·.1 == name)).length ≤ 1

/-- The values of fields given by name. -/
def fieldsByName (entries : List (String × Datum)) : Fields := fun name ↦ entries.lookup name

/-- Reads the key of an entry. -/
def readKey (entry : Datum × Datum) : Reading (String × Datum) := do
  return (← readText entry.1, entry.2)

/-- Reads the fields of a record with the given names. -/
def readFields (names : List String) : Reader Fields := fun d ↦ do
  match ← d.follow with
  | sequence items =>
    if (← read).recordsInOrder && items.length ≤ names.length then
      return fieldsInOrder names items
    else failure
  | mapping entries =>
    let entries ← entries.mapM readKey
    if hasDistinctNames names entries then return fieldsByName entries else failure
  | scalar s => if s.isBlank then return fun _ ↦ none else failure
  | reference _ => failure

namespace Fields

/-- Reads a field that must be given. -/
def required {α : Type} (fields : Fields) (name : String) (read : Reader α) : Reading α :=
  match fields name with
  | none => failure
  | some d => read d

/-- Reads a field that may be left out. -/
def withDefault {α : Type} (fields : Fields) (name : String) (default : α) (read : Reader α) :
    Reading α :=
  match fields name with
  | none => return default
  | some d => read d

end Fields

/-! ### Size -/

mutual

/-- The size of a value: one for each scalar and each reference, two for each collection. -/
def size : Datum → Nat
  | scalar _ | reference _ => 1
  | sequence items => 2 + itemsSize items
  | mapping entries => 2 + entriesSize entries

/-- The size of items. -/
def itemsSize : List Datum → Nat
  | [] => 0
  | d :: ds => d.size + itemsSize ds

/-- The size of entries. -/
def entriesSize : List (Datum × Datum) → Nat
  | [] => 0
  | (k, v) :: es => k.size + v.size + entriesSize es

end

end Datum

namespace Json

/-- The number of a spelling without a sign, a point and an exponent. -/
def naturalOfSpelling? (spelling : String) : Option Nat := Text.digits? spelling.toList

mutual

/-- A JSON value as a datum. -/
def datum : Json → Datum
  | null => .scalar { presence := .missing }
  | bool value => .scalar { flag := some value }
  | number spelling => .scalar { natural := naturalOfSpelling? spelling }
  | string text => .scalar { text }
  | array items => .sequence (itemData items)
  | object fields => .mapping (fieldData fields)

/-- The items of an array. -/
def itemData : List Json → List Datum
  | [] => []
  | j :: js => j.datum :: itemData js

/-- The fields of an object. -/
def fieldData : List (Option String × Json) → List (Datum × Datum)
  | [] => []
  | (k, j) :: fs => (.scalar { text := k }, j.datum) :: fieldData fs

end

/-- A JSON value as a document. There are no references in it, and records may be arrays. -/
def source (j : Json) : Datum.Source := ⟨j.datum, ⟨fun _ ↦ none, true⟩, 0⟩

/-- Reads a JSON value as what it is wanted for. -/
def readAs? {α : Type} (j : Json) (read : Datum.Reader α) : Option α := j.source.read? read

end Json

end MethodFingerprint
