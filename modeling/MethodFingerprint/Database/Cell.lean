/-!
# Cells

What a database keeps stands in the cells of tables. A cell holds nothing, a number, a text or
bytes, whatever its column was declared for: whether it is what somebody expects there is seen only
when it is read.
-/

namespace MethodFingerprint.Database

/-- What a column is declared to hold. -/
inductive Kind where
  | integer
  | text
  deriving DecidableEq, Repr

/-- What a cell holds. -/
inductive Cell where
  | nothing
  | integer (value : Int)
  /-- A number that is not whole, by the bits it is written with. -/
  | real (bits : UInt64)
  | text (value : String)
  | blob (bytes : List UInt8)
  deriving DecidableEq, Repr

namespace Cell

/-- A text or nothing. -/
def ofOption : Option String → Cell
  | none => nothing
  | some s => text s

/-- A truth value, kept as a number. -/
def ofBool (b : Bool) : Cell := integer (if b then 1 else 0)

/-- What a cell holds that should hold a text. -/
def text? : Cell → Option String
  | text s => some s
  | _ => none

/-- What a cell holds that should hold a whole number. -/
def integer? : Cell → Option Int
  | integer n => some n
  | _ => none

/-- What a cell holds that may hold a text or nothing. -/
def optionalText? : Cell → Option (Option String)
  | nothing => some none
  | text s => some (some s)
  | _ => none

/-- The kind of column that a cell is at home in. -/
def kind? : Cell → Option Kind
  | integer _ => some .integer
  | text _ => some .text
  | _ => none

@[simp] theorem optionalText?_ofOption (s : Option String) :
    (ofOption s).optionalText? = some s := by
  cases s <;> rfl

end Cell

end MethodFingerprint.Database
