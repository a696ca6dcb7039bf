import MethodFingerprint.Document.Yaml.Cursor
import MethodFingerprint.Text.Hex

/-!
# The text of YAML scalars

Scalars come in five styles. A **plain** scalar has no marks; it ends where something else begins. A
**quoted** one stands between single or double marks. Both may go on over several lines, which are
then folded: one break becomes a space, of several breaks all but the first are kept. A **literal**
scalar keeps the breaks of the lines below it, a **folded** one folds them where it can.

The readers here take the text of a scalar off a cursor. They walk along the text with fuel, of
which every step uses one unit and takes at least one character; more fuel than there are characters
left is enough.
-/

namespace MethodFingerprint.Yaml

/-- How a scalar is written. -/
inductive Style where
  | plain | singleQuoted | doubleQuoted | literal | folded
  deriving DecidableEq, Repr

/-! ### Gaps

The blanks and breaks between two words of a plain or quoted scalar.
-/

/-- What has been passed since the last word. -/
inductive Gap where
  | none
  /-- Blanks on one line, latest first. -/
  | blanks (taken : List Char)
  /-- Breaks: the first one, if it counts, and those behind it, latest first. -/
  | breaks (first : Option Char) (more : List Char)
  deriving Repr

namespace Gap

/-- What a gap leaves in the text, latest first. -/
def folded : Gap → List Char
  | none => []
  | blanks taken => taken
  | breaks (some '\n') [] => [' ']
  | breaks (some '\n') more => more
  | breaks (some first) more => more ++ [first]
  | breaks Option.none more => more

/-- A blank on the line of the last word is kept for now; one at the start of a line is not. -/
def addBlank (c : Char) : Gap → Gap
  | none => blanks [c]
  | blanks taken => blanks (c :: taken)
  | breaks first more => breaks first more

/-- The first break ends the blanks before it, the others are kept. -/
def addBreak (c : Char) : Gap → Gap
  | none | blanks _ => breaks (some c) []
  | breaks first more => breaks first (c :: more)

/-- Whether a break has been passed. -/
def hasBreak : Gap → Bool
  | breaks _ _ => true
  | _ => false

end Gap

/-- Passes blanks and breaks. A tab that stands left of `indent` at the start of a line is an error;
`indent` is 0 where that does not matter. -/
def passGap (indent : Nat) : (fuel : Nat) → Cursor → Gap → Option (Gap × Cursor)
  | 0, c, g => some (g, c)
  | fuel + 1, c, g =>
    match c.rest with
    | [] => some (g, c)
    | d :: _ =>
      if isBlank d then
        if d == '\t' && g.hasBreak && c.column < indent then none
        else passGap indent fuel c.skip (g.addBlank d)
      else match c.takeBreak? with
        | some (b, c) => passGap indent fuel c (g.addBreak b)
        | none => some (g, c)

/-! ### Quoted scalars -/

/-- The character of a code in so many hexadecimal digits. -/
def charOfHex? (digits : Nat) (s : List Char) : Option Char :=
  if s.length < digits then none
  else match Text.digitsInBase? 16 (s.take digits) with
    | some n => if n < 0xD800 ∨ (0xE000 ≤ n ∧ n < 0x110000) then some (Char.ofNat n) else none
    | none => none

/-- The character that a letter behind a backslash stands for. -/
def letterValue? : Char → Option Char
  | '0' => some '\x00'
  | 'a' => some '\x07'
  | 'b' => some '\x08'
  | 't' | '\t' => some '\t'
  | 'n' => some '\n'
  | 'v' => some '\x0b'
  | 'f' => some '\x0c'
  | 'r' => some '\x0d'
  | 'e' => some '\x1b'
  | ' ' => some ' '
  | '"' => some '"'
  | '/' => some '/'
  | '\\' => some '\\'
  | 'N' => some '\u0085'
  | '_' => some '\u00a0'
  | 'L' => some '\u2028'
  | 'P' => some '\u2029'
  | _ => none

/-- How many digits follow a letter that introduces a code. -/
def codeLength? : Char → Option Nat
  | 'x' => some 2
  | 'u' => some 4
  | 'U' => some 8
  | _ => none

/-- Reads the escape behind a backslash: its character and the position behind it. -/
def readEscape? (c : Cursor) : Option (Char × Cursor) :=
  match c.rest with
  | [] => none
  | e :: rest =>
    match codeLength? e with
    | some n => (charOfHex? n rest).map fun d ↦ (d, c.skipN (n + 1))
    | none => (letterValue? e).map fun d ↦ (d, c.skip)

/-- Reads a quoted scalar whose opening mark has been taken; `done` is its text so far, latest
first. -/
def readQuoted (single : Bool) : (fuel : Nat) → Cursor → List Char → Option (List Char × Cursor)
  | 0, _, _ => none
  | fuel + 1, c, done =>
    if c.atAnyBorder then none
    else match c.rest with
      | [] => none
      | '\'' :: rest =>
        if !single then readQuoted single fuel c.skip ('\'' :: done)
        else if rest.head? == some '\'' then readQuoted single fuel (c.skipN 2) ('\'' :: done)
        else some (done.reverse, c.skip)
      | '"' :: _ =>
        if single then readQuoted single fuel c.skip ('"' :: done)
        else some (done.reverse, c.skip)
      | '\\' :: _ =>
        if single then readQuoted single fuel c.skip ('\\' :: done)
        else match c.skip.takeBreak? with
          | some (_, c) =>
            match passGap 0 fuel c (.breaks none []) with
            | some (g, c) => readQuoted single fuel c (g.folded ++ done)
            | none => none
          | none =>
            match readEscape? c.skip with
            | some (d, c) => readQuoted single fuel c (d :: done)
            | none => none
      | d :: _ =>
        if isBlank d || isBreak d then
          match passGap 0 fuel c .none with
          | some (g, c) => readQuoted single fuel c (g.folded ++ done)
          | none => none
        else readQuoted single fuel c.skip (d :: done)

/-! ### Plain scalars -/

/-- Whether a plain scalar ends before the given text. In a bracketed collection the marks of such
collections end it too. -/
def endsPlain (inFlow : Bool) : List Char → Bool
  | ':' :: rest => atGap rest
  | c :: _ => inFlow && (c == ',' || c == '[' || c == ']' || c == '{' || c == '}')
  | [] => true

/-- Whether a colon stands where it can neither end a plain scalar nor be part of one. -/
def isStrayColon (inFlow : Bool) : List Char → Bool
  | ':' :: c :: _ =>
    inFlow && (c == ',' || c == '?' || c == '[' || c == ']' || c == '{' || c == '}')
  | _ => false

/-- Reads a plain scalar: its text, whether a break was passed behind it, and the position. The
lines it goes on over must start at least at `indent`, unless it stands in a bracketed collection.
The gap passed since the last word is part of the text only if another word follows. -/
def readPlain (inFlow : Bool) (indent : Nat) : (fuel : Nat) → Cursor → List Char → Gap →
    Option (List Char × Bool × Cursor)
  | 0, c, done, g => some (done.reverse, g.hasBreak, c)
  | fuel + 1, c, done, g =>
    let ended := some (done.reverse, g.hasBreak, c)
    match c.rest with
    | [] => ended
    | d :: _ =>
      if isBlank d || isBreak d then
        match passGap indent fuel c g with
        | none => none
        | some (g, c) =>
          if (!inFlow && c.column < indent) || c.atAnyBorder || c.rest.head? == some '#' then
            some (done.reverse, g.hasBreak, c)
          else readPlain inFlow indent fuel c done g
      else if isStrayColon inFlow c.rest then none
      else if endsPlain inFlow c.rest then ended
      else readPlain inFlow indent fuel c.skip (d :: g.folded ++ done) .none

/-! ### Block scalars -/

/-- What becomes of the breaks at the end of a block scalar. -/
inductive Chomping where
  | strip | clip | keep
  deriving DecidableEq, Repr

/-- Reads the chomping mark. -/
def readChomping? : List Char → Option Chomping
  | '+' :: _ => some .keep
  | '-' :: _ => some .strip
  | _ => none

/-- Reads the digit that says how far a block is indented. A zero is an error. -/
def readIndentation? (c : Cursor) : Option (Option Nat × Cursor) :=
  match c.rest with
  | '0' :: _ => none
  | d :: _ => if d.isDigit then some (some (d.toNat - '0'.toNat), c.skip) else some (none, c)
  | [] => some (none, c)

/-- Reads the marks behind the bar or arrow of a block scalar, in either order. -/
def readBlockHeader? (c : Cursor) : Option (Chomping × Option Nat × Cursor) :=
  match readChomping? c.rest with
  | some chomping => (readIndentation? c.skip).map fun r ↦ (chomping, r.1, r.2)
  | none =>
    match readIndentation? c with
    | some (some n, c) =>
      match readChomping? c.rest with
      | some chomping => some (chomping, some n, c.skip)
      | none => some (.clip, some n, c)
    | some (none, c) => some (.clip, none, c)
    | none => none

/-- Passes empty lines and the blanks that indent the next line: the breaks passed, latest first,
the furthest column reached, and the position. As long as the indentation is unknown, it is as far
as the blanks go. -/
def passEmptyLines (indent : Option Nat) : (fuel : Nat) → Cursor → List Char → Nat →
    Option (List Char × Nat × Cursor)
  | 0, c, breaks, furthest => some (breaks, furthest, c)
  | fuel + 1, c, breaks, furthest =>
    let within (column : Nat) : Bool := indent.all (column < ·)
    match c.rest with
    | ' ' :: _ =>
      if within c.column then passEmptyLines indent fuel c.skip breaks (max furthest (c.column + 1))
      else some (breaks, furthest, c)
    | '\t' :: _ => if within c.column then none else some (breaks, furthest, c)
    | _ =>
      match c.takeBreak? with
      | some (b, c) => passEmptyLines indent fuel c (b :: breaks) furthest
      | none => some (breaks, furthest, c)

/-- Reads the lines of a block scalar. `leading` is the break of the line before, `breaks` those of
the empty lines behind it, `wasBlank` says whether that line started with a blank. Everything is
kept latest first. -/
def readBlockLines (fold : Bool) (chomping : Chomping) (indent : Nat) :
    (fuel : Nat) → Cursor → (done leading breaks : List Char) → (wasBlank : Bool) →
    Option (List Char × Cursor)
  | 0, _, _, _, _, _ => none
  | fuel + 1, c, done, leading, breaks, wasBlank =>
    if c.column == indent && !c.rest.isEmpty then
      let isBlankNow := (c.rest.head?.map isBlank).getD false
      let joined :=
        if fold && leading == ['\n'] && !wasBlank && !isBlankNow then
          if breaks.isEmpty then [' '] else []
        else leading
      let line := c.rest.takeWhile fun d ↦ !isBreak d
      let done := line.reverse ++ breaks ++ joined ++ done
      let c := c.skipLine
      let (leading, c) := match c.takeBreak? with
        | some (b, c) => ([b], c)
        | none => ([], c)
      match passEmptyLines (some indent) fuel c [] 0 with
      | none => none
      | some (breaks, _, c) =>
        readBlockLines fold chomping indent fuel c done leading breaks isBlankNow
    else
      let tail := if chomping == .strip then [] else leading
      let tail := if chomping == .keep then breaks ++ tail else tail
      some ((tail ++ done).reverse, c)

/-- Reads a block scalar whose bar or arrow has been taken. `parent` is the indentation of the
collection around it, one more than its column, 0 outside of all. -/
def readBlock (fold : Bool) (parent : Nat) (c : Cursor) : Option (List Char × Cursor) := do
  let (chomping, given, c) ← readBlockHeader? c
  let c := c.skipWhile isBlank
  let c := if c.rest.head? == some '#' then c.skipLine else c
  let c ← match c.takeBreak? with
    | some (_, c) => some c
    | none => if c.rest.isEmpty then some c else none
  let indent := given.map fun n ↦ if parent = 0 then n else parent - 1 + n
  let (breaks, furthest, c) ← passEmptyLines indent (c.rest.length + 1) c [] 0
  let indent := indent.getD (max furthest (max parent 1))
  readBlockLines fold chomping indent (c.rest.length + 2) c [] [] breaks false

end MethodFingerprint.Yaml
