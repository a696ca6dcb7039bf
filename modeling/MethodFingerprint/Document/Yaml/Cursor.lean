/-!
# Positions in a YAML text

A `Cursor` is what is left of a text, with the place where it stands: how many octets came before,
on which line and how many characters into it. Columns matter in YAML, so every step keeps count of
them.

A **break** ends a line. Besides the line feed these are the carriage return, with or without a line
feed behind it, the next-line character and the separators of lines and paragraphs. Inside a scalar
every break becomes a line feed, but for the two separators, which are kept.
-/

namespace MethodFingerprint.Yaml

/-- The separator of lines and the separator of paragraphs. -/
def isSeparator (c : Char) : Bool := c == '\u2028' || c == '\u2029'

/-- Whether a character ends a line. -/
def isBreak (c : Char) : Bool := c == '\n' || c == '\x0d' || c == '\u0085' || isSeparator c

/-- Whether a character is a space or a tab. -/
def isBlank (c : Char) : Bool := c == ' ' || c == '\t'

/-- Whether the text goes on with a blank or a break, or ends. -/
def atGap : List Char → Bool
  | [] => true
  | c :: _ => isBlank c || isBreak c

/-- The number of octets of a text. -/
def octets (s : List Char) : Nat := s.foldr (fun c n ↦ c.utf8Size + n) 0

/-- A position. -/
structure Cursor where
  rest : List Char
  /-- How many octets came before. -/
  index : Nat
  line : Nat
  column : Nat
  deriving Repr

namespace Cursor

/-- The position before a text. -/
def start (text : List Char) : Cursor := ⟨text, 0, 0, 0⟩

/-- Steps over several characters of a line. -/
def skipN (c : Cursor) (n : Nat) : Cursor :=
  ⟨c.rest.drop n, c.index + octets (c.rest.take n), c.line, c.column + n⟩

/-- Steps over one character of a line. -/
def skip (c : Cursor) : Cursor := c.skipN 1

/-- Steps over a break: the character it becomes in a scalar, and the position behind it. -/
def takeBreak? (c : Cursor) : Option (Char × Cursor) :=
  match c.rest with
  | '\x0d' :: '\n' :: rest => some ('\n', ⟨rest, c.index + 2, c.line + 1, 0⟩)
  | b :: rest =>
    if isBreak b then
      some (if isSeparator b then b else '\n', ⟨rest, c.index + b.utf8Size, c.line + 1, 0⟩)
    else none
  | [] => none

/-- Steps over the characters of a line that pass a test. -/
def skipWhile (p : Char → Bool) (c : Cursor) : Cursor :=
  c.skipN (c.rest.takeWhile p).length

/-- Steps over the rest of a line, up to its break. -/
def skipLine (c : Cursor) : Cursor := c.skipWhile fun d ↦ !isBreak d

/-- Whether three of the same mark stand alone at the start of a line, which marks the border of a
document. -/
def atBorder (mark : Char) (c : Cursor) : Bool :=
  c.column == 0 && match c.rest with
    | a :: b :: d :: rest => a == mark && b == mark && d == mark && atGap rest
    | _ => false

/-- Whether the border of a document stands here. -/
def atAnyBorder (c : Cursor) : Bool := c.atBorder '-' || c.atBorder '.'

end Cursor

end MethodFingerprint.Yaml
