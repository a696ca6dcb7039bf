import MethodFingerprint.Pattern
import MethodFingerprint.Pattern.Literal

/-!
# Reading patterns

A pattern is read line by line. A line is blank or a section, a name and arguments in parentheses;
sections may come in any order, each at most once. Blanks are allowed around everything but inside
words and literals.

The text is read in three steps. `body` takes off the header and the braces. `readLine` takes a line
apart into a `SectionLine`. `Draft.add` works out what the section means. Errors name the line they
are in; lines are counted from the opening brace, so the line of the brace is line 1.
-/

namespace MethodFingerprint

open Text

namespace Pattern

/-- What is wrong with a line. -/
inductive LineFault where
  | expectedSection
  | unclosedSection
  | trailingComma
  | unexpected (c : Char)
  | literal (fault : Literal.Fault)
  | unknownSection (name : String)
  | duplicateSection (s : Section)
  | returnsArity
  | quotedFlag
  | unknownFlag (word : String)
  | expectedLiteral (s : Section) (word : String)
  | tooManyParameters
  deriving DecidableEq, Repr

namespace LineFault

/-- What is wrong, in words. -/
def message : LineFault → String
  | expectedSection => "expected 'section(...)'"
  | unclosedSection => "section is missing its closing ')'"
  | trailingComma => "trailing ',' in argument list"
  | unexpected c => "unexpected '" ++ c.toString ++ "' after argument"
  | literal .unterminated => "unterminated string literal"
  | literal (.unknownEscape c) => "unknown escape '\\" ++ c.toString ++ "'"
  | unknownSection name => "unknown section '" ++ name ++ "'"
  | duplicateSection s => "duplicate " ++ s.name ++ " section"
  | returnsArity => "returns takes exactly one string literal"
  | quotedFlag => "access flags are not quoted"
  | unknownFlag word => "unknown access flag '" ++ word ++ "'"
  | expectedLiteral s word => s.name ++ " expects string literals, found '" ++ word ++ "'"
  | tooManyParameters =>
    "parameters section has more than " ++ toString maxParameters ++ " slots"

end LineFault

/-- Why a text is no pattern. -/
inductive ParseError where
  | missingHeader
  | unterminated
  | line (number : Nat) (fault : LineFault)
  deriving DecidableEq, Repr

namespace ParseError

/-- The error in words. -/
def message : ParseError → String
  | missingHeader => "Pattern must start with 'fingerprint \x7b'"
  | unterminated => "Pattern is missing its closing '\x7d'"
  | line number fault => "Line " ++ toString number ++ ": " ++ fault.message

end ParseError

/-! ### Arguments -/

/-- An argument of a section. -/
inductive Argument where
  | literal (value : List Char)
  /-- Anything that does not start with a quotation mark, up to a comma or a blank. -/
  | word (text : List Char)
  deriving DecidableEq, Repr

/-- Whether a character goes on with a word. -/
def isWordChar (c : Char) : Bool := !(c == ',' || isBlank c)

/-- Reads the argument a text starts with: the argument and what follows it. -/
def readArgument : List Char → Except LineFault (Argument × List Char)
  | '"' :: rest =>
    match Literal.read rest with
    | .ok (value, rest) => .ok (.literal value, rest)
    | .error fault => .error (.literal fault)
  | s => .ok (.word (s.takeWhile isWordChar), s.dropWhile isWordChar)

theorem length_le_of_readArgument {s rest : List Char} {a : Argument}
    (h : readArgument s = .ok (a, rest)) : rest.length ≤ s.length := by
  unfold readArgument at h
  split at h
  · split at h
    · rename_i hr
      cases h
      have := Literal.length_lt_of_read hr
      simp only [List.length_cons]
      omega
    · cases h
  · cases h
    exact (List.dropWhile_suffix isWordChar).length_le

/-- Reads arguments separated by commas up to the end of the text. No argument at all is fine at the
start, but not behind a comma. -/
def readArguments (afterComma : Bool) (s : List Char) : Except LineFault (List Argument) :=
  match _hs : trimStart s with
  | [] => if afterComma then .error .trailingComma else .ok []
  | c :: cs =>
    match _ha : readArgument (c :: cs) with
    | .error fault => .error fault
    | .ok (a, rest) =>
      match _hr : trimStart rest with
      | [] => .ok [a]
      | ',' :: more => (readArguments true more).map (a :: ·)
      | d :: _ => .error (.unexpected d)
termination_by s.length
decreasing_by
  have h₁ : (s.dropWhile isBlank).length ≤ s.length := (List.dropWhile_suffix isBlank).length_le
  have h₂ := length_le_of_readArgument _ha
  have h₃ : (rest.dropWhile isBlank).length ≤ rest.length :=
    (List.dropWhile_suffix isBlank).length_le
  rw [trimStart] at _hs _hr
  rw [_hs] at h₁
  rw [_hr] at h₃
  simp only [List.length_cons] at h₁ h₂ h₃
  omega

/-! ### Lines -/

/-- A line that is not blank, taken apart. -/
structure SectionLine where
  name : List Char
  arguments : List Argument
  deriving DecidableEq, Repr

/-- Takes a line apart. The arguments start behind the first parenthesis and end before the last
character, which must be a parenthesis. A blank line has nothing to take apart. -/
def readLine (line : List Char) : Except LineFault (Option SectionLine) :=
  match trim line with
  | [] => .ok none
  | c :: cs =>
    match splitFirst? '(' (c :: cs) with
    | none => .error .expectedSection
    | some (name, rest) =>
      match beforeLast? ')' rest with
      | none => .error .unclosedSection
      | some inner => (readArguments false inner).map fun arguments ↦ some ⟨trim name, arguments⟩

/-! ### Sections -/

/-- What the sections read so far have said. -/
structure Draft where
  returnType : Option String := none
  accessFlags : Option UInt32 := none
  parameters : Option (List (Option String)) := none
  strings : Option (List String) := none

/-- The values of arguments that must all be literals. -/
def literals (s : Section) : List Argument → Except LineFault (List String)
  | [] => .ok []
  | .literal value :: rest => (literals s rest).map (String.ofList value :: ·)
  | .word text :: _ => .error (.expectedLiteral s (String.ofList text))

/-- The flag of a word, with or without its qualifier. -/
def flagOfWord? (word : List Char) : Option AccessFlag :=
  AccessFlag.ofName? (String.ofList ((afterHead? flagQualifier word).getD word))

/-- The flags of arguments that must all be flag names. -/
def flags : List Argument → Except LineFault (List AccessFlag)
  | [] => .ok []
  | .literal _ :: _ => .error .quotedFlag
  | .word text :: rest =>
    match flagOfWord? text with
    | some flag => (flags rest).map (flag :: ·)
    | none => .error (.unknownFlag (String.ofList text))

/-- A type as a position holds it: the empty one leaves the position open. -/
def slotOfType (descriptor : String) : Option String :=
  if descriptor = "" then none else some descriptor

namespace Draft

/-- Adds what a section says, which must not have been said before. -/
def add (d : Draft) (l : SectionLine) : Except LineFault Draft :=
  match Section.ofName? l.name with
  | none => .error (.unknownSection (String.ofList l.name))
  | some .returns =>
    if d.returnType.isSome then .error (.duplicateSection .returns)
    else match l.arguments with
      | [.literal value] => .ok { d with returnType := some (String.ofList value) }
      | _ => .error .returnsArity
  | some .accessFlags =>
    if d.accessFlags.isSome then .error (.duplicateSection .accessFlags)
    else (flags l.arguments).map fun flags ↦
      { d with accessFlags := some (AccessFlag.encode flags) }
  | some .parameters =>
    if d.parameters.isSome then .error (.duplicateSection .parameters)
    else match literals .parameters l.arguments with
      | .error fault => .error fault
      | .ok types =>
        if types.length > maxParameters then .error .tooManyParameters
        else .ok { d with parameters := some (types.map slotOfType) }
  | some .strings =>
    if d.strings.isSome then .error (.duplicateSection .strings)
    else (literals .strings l.arguments).map fun strings ↦ { d with strings := some strings }

/-- Adds what a line says. -/
def addLine (d : Draft) (line : List Char) : Except LineFault Draft :=
  match readLine line with
  | .error fault => .error fault
  | .ok none => .ok d
  | .ok (some l) => d.add l

/-- Adds what lines say, the first of which has the given number. -/
def addLines (d : Draft) (number : Nat) : List (List Char) → Except ParseError Draft
  | [] => .ok d
  | line :: rest =>
    match d.addLine line with
    | .error fault => .error (.line number fault)
    | .ok d => d.addLines (number + 1) rest

/-- The pattern the sections make. -/
def pattern (d : Draft) : Pattern :=
  ⟨d.returnType, d.accessFlags, d.parameters, d.strings.getD []⟩

end Draft

/-! ### The whole pattern -/

/-- What stands between the braces. -/
def body (text : List Char) : Except ParseError (List Char) :=
  match (afterHead? header (trim text)).bind fun rest ↦ afterHead? ['{'] (trimStart rest) with
  | none => .error .missingHeader
  | some rest =>
    match beforeLast? '}' (trimEnd rest) with
    | none => .error .unterminated
    | some body => .ok body

/-- Reads a pattern from a list of characters. -/
def parseChars (text : List Char) : Except ParseError Pattern :=
  match body text with
  | .error e => .error e
  | .ok body => (Draft.addLines {} 1 (lines body)).map Draft.pattern

/-- **Reads a pattern.** -/
def parse (text : String) : Except ParseError Pattern :=
  parseChars text.toList

end Pattern

end MethodFingerprint
