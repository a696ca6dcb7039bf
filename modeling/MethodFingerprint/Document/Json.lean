import MethodFingerprint.Text.Decimal
import MethodFingerprint.Text.Hex

/-!
# JSON

A JSON value keeps everything that decides whether and how it can be used. A number keeps its
spelling, so that `1` and `1.0` stay apart and nothing is rounded. A string is `none` when its
escapes name half of a surrogate pair: such a literal is well formed and may stand where nobody
reads it, but there is no text it denotes. An object keeps its fields in order, repetitions
included.

Values are written in two layouts: `compact`, without any blank, and `pretty`, with every item and
field on a line of its own, two spaces further in than the brackets around it.
-/

namespace MethodFingerprint

/-- A JSON value. -/
inductive Json where
  | null
  | bool (value : Bool)
  | number (spelling : String)
  | string (text : Option String)
  | array (items : List Json)
  | object (fields : List (Option String × Json))
  deriving Inhabited, Repr

namespace Json

/-- A text. -/
def ofString (s : String) : Json := .string (some s)

/-- A natural number. -/
def ofNat (n : Nat) : Json := .number (String.ofList (Text.numeral n))

/-- An array of texts. -/
def ofStrings (l : List String) : Json := .array (l.map ofString)

/-- An object with known keys. -/
def ofFields (fields : List (String × Json)) : Json :=
  .object (fields.map fun f ↦ (some f.1, f.2))

/-- A value or `null`. -/
def ofOption {α : Type} (f : α → Json) : Option α → Json
  | none => .null
  | some a => f a

/-! ### Strings -/

/-- The escape of a character by a letter. -/
def letterEscape? : Char → Option Char
  | '"' => some '"'
  | '\\' => some '\\'
  | '\x08' => some 'b'
  | '\x0c' => some 'f'
  | '\n' => some 'n'
  | '\r' => some 'r'
  | '\t' => some 't'
  | _ => none

/-- One character as it stands in a string literal. Control characters and the two characters that
would end or confuse the literal are escaped, everything else stands for itself. -/
def writeChar (c : Char) : List Char :=
  match letterEscape? c with
  | some e => ['\\', e]
  | none =>
    if c.toNat < 0x20 then
      ['\\', 'u', '0', '0', Text.hexDigit (c.toNat / 16), Text.hexDigit c.toNat]
    else [c]

/-- A text as a string literal. -/
def writeString (s : List Char) : List Char :=
  '"' :: s.flatMap writeChar ++ ['"']

/-- A string that may denote no text, which is then written as the empty one. -/
def writeText (s : Option String) : List Char :=
  writeString (s.getD "").toList

/-! ### Layouts -/

mutual

/-- A value without any blank. -/
def writeCompact : Json → List Char
  | null => "null".toList
  | bool true => "true".toList
  | bool false => "false".toList
  | number spelling => spelling.toList
  | string text => writeText text
  | array items => '[' :: writeItems items ++ [']']
  | object fields => '{' :: writeFields fields ++ ['}']

/-- Items with commas between them. -/
def writeItems : List Json → List Char
  | [] => []
  | [j] => writeCompact j
  | j :: js => writeCompact j ++ ',' :: writeItems js

/-- Fields with commas between them. -/
def writeFields : List (Option String × Json) → List Char
  | [] => []
  | [(k, j)] => writeText k ++ ':' :: writeCompact j
  | (k, j) :: fs => writeText k ++ ':' :: writeCompact j ++ ',' :: writeFields fs

end

/-- A line break and the blanks a line starts with. -/
def newLine (depth : Nat) : List Char := '\n' :: List.replicate (2 * depth) ' '

mutual

/-- A value with every item on its own line; `depth` counts the brackets around it. -/
def writePretty (depth : Nat) : Json → List Char
  | array [] => ['[', ']']
  | array items => '[' :: prettyItems (depth + 1) items ++ newLine depth ++ [']']
  | object [] => ['{', '}']
  | object fields => '{' :: prettyFields (depth + 1) fields ++ newLine depth ++ ['}']
  | j => writeCompact j

/-- Items on lines of their own. -/
def prettyItems (depth : Nat) : List Json → List Char
  | [] => []
  | [j] => newLine depth ++ writePretty depth j
  | j :: js => newLine depth ++ writePretty depth j ++ ',' :: prettyItems depth js

/-- Fields on lines of their own. -/
def prettyFields (depth : Nat) : List (Option String × Json) → List Char
  | [] => []
  | [(k, j)] => newLine depth ++ writeText k ++ ':' :: ' ' :: writePretty depth j
  | (k, j) :: fs =>
    newLine depth ++ writeText k ++ ':' :: ' ' :: writePretty depth j ++ ',' ::
      prettyFields depth fs

end

/-- The text of a value without any blank. -/
def compact (j : Json) : String := String.ofList j.writeCompact

/-- The text of a value with every item on a line of its own. -/
def pretty (j : Json) : String := String.ofList (j.writePretty 0)

end Json

end MethodFingerprint
