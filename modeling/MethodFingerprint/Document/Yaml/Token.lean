import MethodFingerprint.Document.Yaml.Scalar
import MethodFingerprint.Document.Yaml.Tag

/-!
# YAML tokens

A YAML text is a sequence of **tokens**: the marks that stand in it, scalars, and the starts and
ends of collections in block style, which no mark shows but the columns in which their items stand.

A key of a mapping need not be marked either. That something was a key is known only when the colon
behind it is met, so a `Scanner` remembers where a key may have started, one such place for every
bracket that is open, and puts the token for the key in front of what has been read since. Such a
key stays on one line and is at most 1024 octets long; a place grown too old is **expired**. At
the column of the collection around it nothing but a key can stand, and there it must not expire.
-/

namespace MethodFingerprint.Yaml

/-- A token. -/
inductive Token where
  /-- The directive that names the version of YAML. -/
  | version (major minor : Nat)
  /-- The directive that gives a handle of tags its meaning. -/
  | tagHandle (handle : String) (meaning : Tag)
  | documentStart
  | documentEnd
  /-- A sequence or mapping in block style starts, or whichever was last started ends. -/
  | sequenceStart
  | mappingStart
  | blockEnd
  /-- The brackets and braces. -/
  | openBracket
  | closeBracket
  | openBrace
  | closeBrace
  /-- The dash before an item in block style. -/
  | item
  /-- The comma between items in brackets or braces. -/
  | comma
  | key
  | value
  | alias (name : String)
  | anchor (name : String)
  | tag (handle : String) (suffix : Tag)
  | scalar (style : Style) (text : String)
  deriving DecidableEq, Repr

/-- A place where a key may have started. -/
structure KeyPlace where
  /-- How many tokens stand before it. -/
  token : Nat
  index : Nat
  line : Nat
  column : Nat
  /-- Whether nothing but a key can stand here. -/
  isRequired : Bool
  deriving Repr

/-- The state of reading tokens. -/
structure Scanner where
  cursor : Cursor
  tokens : Array Token
  /-- The columns of the open collections in block style, innermost first. -/
  columns : List Nat
  /-- Where a key may have started, inside the innermost bracket. -/
  keyPlace : Option KeyPlace
  /-- The same for the brackets around it, innermost first. There are as many as brackets open. -/
  outerPlaces : List (Option KeyPlace)
  /-- Whether a key may start here. -/
  keyAllowed : Bool

namespace Scanner

/-- The state before a text. -/
def start (text : List Char) : Scanner := ⟨.start text, #[], [], none, [], true⟩

/-- Whether a bracket is open. -/
def inFlow (s : Scanner) : Bool := !s.outerPlaces.isEmpty

/-- The indentation of a collection around the cursor, one more than its column, 0 outside of all.
-/
def indent (s : Scanner) : Nat := (s.columns.head?.map (· + 1)).getD 0

/-- Adds a token. -/
def emit (s : Scanner) (t : Token) : Scanner := { s with tokens := s.tokens.push t }

/-- Takes a mark of so many characters. -/
def take (s : Scanner) (n : Nat) (t : Token) : Scanner :=
  { s with cursor := s.cursor.skipN n, tokens := s.tokens.push t }

/-- Says whether a key may start next. -/
def allowKey (s : Scanner) (allowed : Bool) : Scanner := { s with keyAllowed := allowed }

/-! ### Collections in block style -/

/-- Opens a collection at a column, if it is further in than the one around it. Its token is put in
place `token`. -/
def openBlock (s : Scanner) (column token : Nat) (t : Token) : Scanner :=
  if !s.inFlow && s.columns.head?.all (· < column) then
    { s with columns := column :: s.columns, tokens := s.tokens.insertIdxIfInBounds token t }
  else s

/-- Closes the collections for which a test of their columns holds, from the innermost on. -/
def closeBlocks (s : Scanner) (p : Nat → Bool) : Scanner :=
  if s.inFlow then s
  else { s with
    columns := s.columns.dropWhile p
    tokens := s.tokens ++ (s.columns.takeWhile p).map fun _ ↦ Token.blockEnd }

/-- Closes all collections. -/
def closeAllBlocks (s : Scanner) : Scanner := s.closeBlocks fun _ ↦ true

/-! ### Keys -/

/-- Whether a place is too far back for the key that started there. -/
def isExpired (c : Cursor) (k : KeyPlace) : Bool := k.line < c.line || k.index + 1024 < c.index

/-- Forgets the place where a key may have started if it is expired; a required one must not be. The
places outside of open brackets can wait until these have been closed, since what is expired stays
so. -/
def expireKey? (s : Scanner) : Option Scanner :=
  match s.keyPlace with
  | none => some s
  | some k =>
    if !isExpired s.cursor k then some s
    else if k.isRequired then none
    else some { s with keyPlace := none }

/-- Gives up the place where a key may have started; a required one must not be given up. -/
def dropKey? (s : Scanner) : Option Scanner :=
  if s.keyPlace.any (·.isRequired) then none else some { s with keyPlace := none }

/-- Remembers the cursor as a place where a key may start. -/
def markKey? (s : Scanner) : Option Scanner :=
  if !s.keyAllowed then some s
  else s.dropKey?.map fun s ↦
    { s with keyPlace := some ⟨s.tokens.size, s.cursor.index, s.cursor.line, s.cursor.column,
        !s.inFlow && s.columns.head? == some s.cursor.column⟩ }

/-! ### Between tokens -/

/-- Passes the mark of the byte order, with which any line may start. -/
def skipOrderMark (c : Cursor) : Cursor :=
  if c.column == 0 && c.rest.head? == some '\ufeff' then c.skip else c

/-- Passes blanks, comments and breaks. A tab is passed only where no key may start. -/
def skipToToken : (fuel : Nat) → Scanner → Scanner
  | 0, s => s
  | fuel + 1, s =>
    let c := skipOrderMark s.cursor
    let c := c.skipWhile fun d ↦ d == ' ' || (d == '\t' && (s.inFlow || !s.keyAllowed))
    let c := if c.rest.head? == some '#' then c.skipLine else c
    match c.takeBreak? with
    | some (_, cursor) =>
      skipToToken fuel { s with cursor, keyAllowed := s.keyAllowed || !s.inFlow }
    | none => { s with cursor := c }

/-! ### Names, tags and directives -/

/-- The characters that a text starts with and that pass a test, as a text. -/
def spanText (p : Char → Bool) (c : Cursor) : String × Cursor :=
  (String.ofList (c.rest.takeWhile p), c.skipWhile p)

/-- The octets of a tag that a text starts with, all of them. -/
def spanTag? (p : Char → Bool) (c : Cursor) : Option (Tag × Cursor) :=
  (Tag.ofSpelling? (c.rest.takeWhile p)).map (·, c.skipWhile p)

/-- A handle of tags: an exclamation mark, a name, and another mark if there is one. -/
def spanHandle? (c : Cursor) : Option (String × Cursor) :=
  if c.rest.head? != some '!' then none
  else
    let (name, c) := spanText isNameChar c.skip
    if c.rest.head? == some '!' then some ("!" ++ name ++ "!", c.skip) else some ("!" ++ name, c)

/-- The name of an anchor or of an alias, behind its mark. -/
def spanName? (c : Cursor) : Option (String × Cursor) :=
  let (name, c) := spanText isNameChar c
  let ends := atGap c.rest || c.rest.head?.any "?:,]\x7d%@`".toList.contains
  if name.isEmpty || !ends then none else some (name, c)

/-- A tag: given in full between angle brackets, or by a handle and what follows it. -/
def readTag? (c : Cursor) : Option (Token × Cursor) :=
  match c.rest with
  | '!' :: '<' :: _ => do
    let (suffix, c) ← spanTag? isFullTagChar (c.skipN 2)
    if suffix.isEmpty || c.rest.head? != some '>' then none
    else some (.tag "" suffix.kept, c.skip)
  | _ => do
    let (handle, rest) ← spanHandle? c
    if handle.length > 1 && handle.toList.getLast? == some '!' then
      let (suffix, c) ← spanTag? isTagChar rest
      if suffix.isEmpty then none else some (.tag handle suffix.kept, c)
    else
      let (suffix, c) ← spanTag? isTagChar c.skip
      some (if suffix.kept.isEmpty then .tag "" .nonspecific else .tag "!" suffix.kept, c)

/-- A number in the version of YAML. -/
def spanVersionNumber? (c : Cursor) : Option (Nat × Cursor) :=
  let (digits, c) := spanText Char.isDigit c
  if digits.length > 9 then none else (Text.digitsInBase? 10 digits.toList).map (·, c)

/-- What stands behind the name of a directive. -/
def readDirectiveValue? (name : String) (c : Cursor) : Option (Token × Cursor) := do
  let c := c.skipWhile isBlank
  match name with
  | "YAML" =>
    let (major, c) ← spanVersionNumber? c
    if c.rest.head? != some '.' then none
    else
      let (minor, c) ← spanVersionNumber? c.skip
      return (.version major minor, c)
  | "TAG" =>
    let (handle, c) ← spanHandle? c
    if (handle != "!" && handle.toList.getLast? != some '!') || !c.rest.head?.any isBlank then none
    else
      let (meaning, c) ← spanTag? isFullTagChar (c.skipWhile isBlank)
      if meaning.isEmpty || !atGap c.rest then none
      else return (.tagHandle handle meaning.kept, c)
  | _ => none

/-- A directive, behind its percent sign, up to the end of its line. -/
def readDirective? (c : Cursor) : Option (Token × Cursor) := do
  let (name, c) := spanText isNameChar c
  if !atGap c.rest then none
  else
    let (t, c) ← readDirectiveValue? name c
    let c := c.skipWhile isBlank
    let c := if c.rest.head? == some '#' then c.skipLine else c
    match c.takeBreak? with
    | some (_, c) => return (t, c)
    | none => if c.rest.isEmpty then return (t, c) else none

/-! ### One token -/

/-- Leaves everything that is open in block style, since the border of a document is met. -/
def leaveDocument? (s : Scanner) : Option Scanner :=
  s.closeAllBlocks.dropKey?.map (·.allowKey false)

/-- The border of a document. -/
def readBorder? (s : Scanner) (t : Token) : Option Scanner :=
  s.leaveDocument?.map (·.take 3 t)

/-- A bracket that opens a collection, which may itself be a key. -/
def readOpening? (s : Scanner) (t : Token) : Option Scanner :=
  s.markKey?.map fun s ↦
    ({ s with keyPlace := none, outerPlaces := s.keyPlace :: s.outerPlaces }.allowKey true).take 1 t

/-- A bracket that closes a collection; what is in it can no longer become a key. -/
def readClosing? (s : Scanner) (t : Token) : Option Scanner :=
  s.dropKey?.map fun s ↦
    let s := match s.outerPlaces with
      | [] => s
      | place :: places => { s with keyPlace := place, outerPlaces := places }
    (s.allowKey false).take 1 t

/-- A comma, behind which a key may start. -/
def readComma? (s : Scanner) : Option Scanner :=
  s.dropKey?.map fun s ↦ (s.allowKey true).take 1 .comma

/-- Opens a collection at the cursor. Outside of brackets that is possible only where a key is. -/
def openBlockHere? (s : Scanner) (t : Token) : Option Scanner :=
  if s.inFlow || s.keyAllowed then some (s.openBlock s.cursor.column s.tokens.size t) else none

/-- A dash. -/
def readItem? (s : Scanner) : Option Scanner := do
  let s ← s.openBlockHere? .sequenceStart
  let s ← s.dropKey?
  return (s.allowKey true).take 1 .item

/-- A question mark. -/
def readKey? (s : Scanner) : Option Scanner := do
  let s ← s.openBlockHere? .mappingStart
  let s ← s.dropKey?
  return (s.allowKey !s.inFlow).take 1 .key

/-- A colon. What was read since the place where a key may have started has then been a key. -/
def readValue? (s : Scanner) : Option Scanner :=
  match s.keyPlace with
  | some k =>
    let s := { s with keyPlace := none, tokens := s.tokens.insertIdxIfInBounds k.token .key }
    some (((s.openBlock k.column k.token .mappingStart).allowKey false).take 1 .value)
  | none => (s.openBlockHere? .mappingStart).map fun s ↦ (s.allowKey !s.inFlow).take 1 .value

/-- An alias or an anchor. -/
def readName? (s : Scanner) (t : String → Token) : Option Scanner := do
  let s ← s.markKey?
  let (name, cursor) ← spanName? s.cursor.skip
  return { s with cursor, keyAllowed := false }.emit (t name)

/-- A tag, behind which a blank must stand, or a comma in brackets. -/
def readTagToken? (s : Scanner) : Option Scanner := do
  let s ← s.markKey?
  let (t, cursor) ← readTag? s.cursor
  if atGap cursor.rest || (s.inFlow && cursor.rest.head? == some ',') then
    return { s with cursor, keyAllowed := false }.emit t
  else none

/-- A literal or folded scalar. -/
def readBlockScalar? (s : Scanner) (fold : Bool) : Option Scanner := do
  let s ← s.dropKey?
  let (text, cursor) ← readBlock fold s.indent s.cursor.skip
  return { s with cursor, keyAllowed := true }.emit
    (.scalar (if fold then .folded else .literal) (String.ofList text))

/-- A scalar between quotation marks. -/
def readQuotedScalar? (s : Scanner) (fuel : Nat) (single : Bool) : Option Scanner := do
  let s ← s.markKey?
  let (text, cursor) ← readQuoted single fuel s.cursor.skip []
  return { s with cursor, keyAllowed := false }.emit
    (.scalar (if single then .singleQuoted else .doubleQuoted) (String.ofList text))

/-- A plain scalar. -/
def readPlainScalar? (s : Scanner) (fuel : Nat) : Option Scanner := do
  let s ← s.markKey?
  let (text, passedBreak, cursor) ← readPlain s.inFlow s.indent fuel s.cursor [] .none
  return { s with cursor, keyAllowed := passedBreak }.emit (.scalar .plain (String.ofList text))

/-- Whether a plain scalar can start here. Most marks cannot start one; a dash, a question mark and
a colon can if something follows them. -/
def startsPlain (inFlow : Bool) : List Char → Bool
  | [] => false
  | c :: rest =>
    if c == '-' then !rest.head?.any isBlank
    else if c == '?' || c == ':' then !inFlow && !atGap rest
    else !isBlank c && !isBreak c && !",[]\x7b\x7d#&*!|>'\"%@`".toList.contains c

/-- Reads the token at the cursor, of which there must be one. There is more fuel than text. -/
def readToken? (s : Scanner) (fuel : Nat) : Option Scanner :=
  if s.cursor.atBorder '-' then s.readBorder? .documentStart
  else if s.cursor.atBorder '.' then s.readBorder? .documentEnd
  else match s.cursor.rest with
    | [] => none
    | c :: rest =>
      if c == '%' && s.cursor.column == 0 then do
        let s ← s.leaveDocument?
        let (t, cursor) ← readDirective? s.cursor.skip
        return { s with cursor }.emit t
      else if c == '[' then s.readOpening? .openBracket
      else if c == '\x7b' then s.readOpening? .openBrace
      else if c == ']' then s.readClosing? .closeBracket
      else if c == '\x7d' then s.readClosing? .closeBrace
      else if c == ',' then s.readComma?
      else if c == '-' && atGap rest then s.readItem?
      else if c == '?' && (s.inFlow || atGap rest) then s.readKey?
      else if c == ':' && (s.inFlow || atGap rest) then s.readValue?
      else if c == '*' then s.readName? .alias
      else if c == '&' then s.readName? .anchor
      else if c == '!' then s.readTagToken?
      else if c == '|' && !s.inFlow then s.readBlockScalar? false
      else if c == '>' && !s.inFlow then s.readBlockScalar? true
      else if c == '\'' then s.readQuotedScalar? fuel true
      else if c == '"' then s.readQuotedScalar? fuel false
      else if startsPlain s.inFlow s.cursor.rest then s.readPlainScalar? fuel
      else none

/-! ### All tokens -/

/-- Reads the tokens that are left. There is more fuel than text, since every token takes some. -/
def readTokens? : (fuel : Nat) → Scanner → Option (List Token)
  | 0, _ => none
  | fuel + 1, s => do
    let s ← (s.skipToToken (fuel + 1)).expireKey?
    let s := s.closeBlocks (s.cursor.column < ·)
    if s.cursor.rest.isEmpty then
      let s ← s.closeAllBlocks.dropKey?
      return s.tokens.toList
    else
      let s ← s.readToken? (fuel + 1)
      readTokens? fuel s

end Scanner

/-- **Reads the tokens of a text.** -/
def Token.ofText? (text : List Char) : Option (List Token) :=
  (Scanner.start text).readTokens? (text.length + 1)

end MethodFingerprint.Yaml
