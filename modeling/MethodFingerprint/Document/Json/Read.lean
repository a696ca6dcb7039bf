import MethodFingerprint.Document.Json

/-!
# Reading JSON

`Json.read?` accepts exactly one value, with blanks around its parts. Blanks are the space, the tab,
the line feed and the carriage return. Numbers have no plus sign, no leading zero and digits on both
sides of a point; strings hold no control character; nothing stands behind the last item of an array
or the last field of an object but the closing bracket.

The readers of values call each other, and each call is given **fuel**. A call for items starts with
a call for the first of them; every other call is made after a character has been taken. Two units
for every character are therefore more than a text can use up.
-/

namespace MethodFingerprint.Json

/-- The blanks of JSON. -/
def isBlank (c : Char) : Bool := c == ' ' || c == '\t' || c == '\n' || c == '\x0d'

/-- Drops the blanks a text starts with. -/
def skipBlanks (s : List Char) : List Char := s.dropWhile isBlank

/-! ### Strings -/

/-- The value of four hexadecimal digits. -/
def hexValue4? (a b c d : Char) : Option Nat :=
  match Text.hexValue? a, Text.hexValue? b, Text.hexValue? c, Text.hexValue? d with
  | some a, some b, some c, some d => some (((a * 16 + b) * 16 + c) * 16 + d)
  | _, _, _, _ => none

/-- The character a letter stands for behind a backslash. -/
def letterValue? : Char → Option Char
  | '"' => some '"'
  | '\\' => some '\\'
  | '/' => some '/'
  | 'b' => some '\x08'
  | 'f' => some '\x0c'
  | 'n' => some '\n'
  | 'r' => some '\r'
  | 't' => some '\t'
  | _ => none

/-- A piece of a string literal: a character, or half of a surrogate pair. -/
inductive Piece where
  | char (c : Char)
  | high (n : Nat)
  | low (n : Nat)
  deriving DecidableEq, Repr

/-- The piece that an escape by code stands for. -/
def Piece.ofCode (n : Nat) : Piece :=
  if 0xD800 ≤ n ∧ n < 0xDC00 then .high n
  else if 0xDC00 ≤ n ∧ n < 0xE000 then .low n
  else .char (Char.ofNat n)

/-- The text of a list of pieces, which exists if every half finds its other half behind it. -/
def textOfPieces? : List Piece → Option (List Char)
  | [] => some []
  | .char c :: rest => (textOfPieces? rest).map (c :: ·)
  | .high h :: .low l :: rest =>
    (textOfPieces? rest).map (Char.ofNat (0x10000 + (h - 0xD800) * 0x400 + (l - 0xDC00)) :: ·)
  | _ => none

/-- Puts a piece in front of the pieces behind it. -/
def consPiece (p : Piece) (r : List Piece × List Char) : List Piece × List Char := (p :: r.1, r.2)

/-- Reads a string literal whose opening quotation mark has been taken: its pieces and what follows
it. -/
def readPieces? : List Char → Option (List Piece × List Char)
  | [] => none
  | '"' :: rest => some ([], rest)
  | '\\' :: 'u' :: a :: b :: c :: d :: rest =>
    match hexValue4? a b c d with
    | some n => (readPieces? rest).map (consPiece (.ofCode n))
    | none => none
  | '\\' :: e :: rest =>
    match letterValue? e with
    | some c => (readPieces? rest).map (consPiece (.char c))
    | none => none
  | c :: rest =>
    if c = '\\' ∨ c.toNat < 0x20 then none else (readPieces? rest).map (consPiece (.char c))

/-- A string literal with its text as a value. -/
def readText? (s : List Char) : Option (Option String × List Char) :=
  (readPieces? s).map fun r ↦ ((textOfPieces? r.1).map String.ofList, r.2)

/-! ### Numbers -/

/-- Takes digits, of which there must be one. -/
def takeDigits? (s : List Char) : Option (List Char × List Char) :=
  match s.takeWhile Char.isDigit with
  | [] => none
  | digits => some (digits, s.dropWhile Char.isDigit)

/-- Takes the digits before the point: a zero alone, or digits that do not start with one. -/
def takeWhole? : List Char → Option (List Char × List Char)
  | '0' :: rest => some (['0'], rest)
  | s => takeDigits? s

/-- Takes a point and the digits behind it, if there is a point. -/
def takeFraction? : List Char → Option (List Char × List Char)
  | '.' :: rest => (takeDigits? rest).map fun r ↦ ('.' :: r.1, r.2)
  | s => some ([], s)

/-- Takes the sign of an exponent. -/
def takeSign : List Char → List Char × List Char
  | '+' :: rest => (['+'], rest)
  | '-' :: rest => (['-'], rest)
  | s => ([], s)

/-- Takes an exponent, if there is one. -/
def takeExponent? : List Char → Option (List Char × List Char)
  | c :: rest =>
    if c = 'e' ∨ c = 'E' then
      let (sign, rest) := takeSign rest
      (takeDigits? rest).map fun r ↦ (c :: sign ++ r.1, r.2)
    else some ([], c :: rest)
  | [] => some ([], [])

/-- Takes the minus sign of a number. -/
def takeMinus : List Char → List Char × List Char
  | '-' :: rest => (['-'], rest)
  | s => ([], s)

/-- Reads a number: its spelling and what follows it. -/
def readNumber? (s : List Char) : Option (String × List Char) := do
  let (minus, s) := takeMinus s
  let (whole, s) ← takeWhole? s
  let (fraction, s) ← takeFraction? s
  let (exponent, s) ← takeExponent? s
  return (String.ofList (minus ++ whole ++ fraction ++ exponent), s)

/-! ### Values -/

/-- Puts a value in front of the items behind it. -/
def consItem (j : Json) (r : List Json × List Char) : List Json × List Char := (j :: r.1, r.2)

/-- Puts a field in front of the fields behind it. -/
def consField (k : Option String) (j : Json) (r : List (Option String × Json) × List Char) :
    List (Option String × Json) × List Char := ((k, j) :: r.1, r.2)

mutual

/-- Reads the value a text starts with, blanks before it allowed. -/
def readValue? : (fuel : Nat) → List Char → Option (Json × List Char)
  | 0, _ => none
  | fuel + 1, s =>
    match skipBlanks s with
    | '"' :: rest => (readText? rest).map fun r ↦ (.string r.1, r.2)
    | '[' :: rest =>
      match skipBlanks rest with
      | ']' :: rest => some (.array [], rest)
      | rest => (readItems? fuel rest).map fun r ↦ (.array r.1, r.2)
    | '{' :: rest =>
      match skipBlanks rest with
      | '}' :: rest => some (.object [], rest)
      | rest => (readFields? fuel rest).map fun r ↦ (.object r.1, r.2)
    | 'n' :: 'u' :: 'l' :: 'l' :: rest => some (.null, rest)
    | 't' :: 'r' :: 'u' :: 'e' :: rest => some (.bool true, rest)
    | 'f' :: 'a' :: 'l' :: 's' :: 'e' :: rest => some (.bool false, rest)
    | s => (readNumber? s).map fun r ↦ (.number r.1, r.2)

/-- Reads items up to the closing bracket, at least one. -/
def readItems? : (fuel : Nat) → List Char → Option (List Json × List Char)
  | 0, _ => none
  | fuel + 1, s =>
    match readValue? fuel s with
    | none => none
    | some (j, rest) =>
      match skipBlanks rest with
      | ',' :: rest => (readItems? fuel rest).map (consItem j)
      | ']' :: rest => some ([j], rest)
      | _ => none

/-- Reads fields up to the closing brace, at least one. -/
def readFields? : (fuel : Nat) → List Char → Option (List (Option String × Json) × List Char)
  | 0, _ => none
  | fuel + 1, s =>
    match skipBlanks s with
    | '"' :: rest =>
      match readText? rest with
      | none => none
      | some (k, rest) =>
        match skipBlanks rest with
        | ':' :: rest =>
          match readValue? fuel rest with
          | none => none
          | some (j, rest) =>
            match skipBlanks rest with
            | ',' :: rest => (readFields? fuel rest).map (consField k j)
            | '}' :: rest => some ([(k, j)], rest)
            | _ => none
        | _ => none
    | _ => none

end

/-- Reads a text that is one value and nothing else. -/
def readChars? (s : List Char) : Option Json :=
  match readValue? (2 * s.length + 2) s with
  | none => none
  | some (j, rest) => if (skipBlanks rest).isEmpty then some j else none

/-- **Reads a JSON text.** -/
def read? (s : String) : Option Json := readChars? s.toList

end MethodFingerprint.Json
