import MethodFingerprint.Document.Yaml.Resolve
import MethodFingerprint.Document.Yaml.Token

/-!
# Reading YAML

`Yaml.read?` reads a text that is at most one document. A document is a **node**: a scalar, a
collection in brackets or in block style, or an alias that stands for a named node. Nodes that are
left out are empty scalars.

## Names and slots

A name that is put before a node stands for a **slot**, and the node is put into it. The number of
the slot is the number of distinct names that were in use before, this one included if it was. An
alias is a reference to the slot its name has at that point. In the end a slot holds the node that
started last among those put into it, wherever in the document that is; so giving a name a second
time makes it share a slot with the next name that is new. An alias may stand inside of the node it
refers to.

The readers of nodes call each other with fuel. At most three calls are made before a token is
taken, so four units for every token are enough.
-/

namespace MethodFingerprint.Yaml

/-- What is left to read, and what has been named. -/
structure Stream where
  tokens : List Token
  /-- The names in use, with their slots. -/
  names : List (String × Nat) := []
  /-- The nodes put into slots, latest start first. A node that is still being read has no value
  yet. -/
  nodes : List (Nat × Option Datum) := []

namespace Stream

/-- Goes on with other tokens. -/
def withTokens (s : Stream) (tokens : List Token) : Stream := { s with tokens }

/-- What an alias stands for. -/
def resolve? (s : Stream) (name : String) : Option Datum := (s.names.lookup name).map .reference

/-- Names the node that is about to be read. -/
def announce (s : Stream) (name : Option String) : Stream :=
  match name with
  | none => s
  | some n =>
    let slot := s.names.length
    { s with
      names := (n, slot) :: s.names.filter (·.1 != n)
      nodes := (slot, none) :: s.nodes }

/-- Gives a value to the node that was named when there were `count` others. -/
def settle (s : Stream) (count : Nat) (name : Option String) (d : Datum) : Stream :=
  match name with
  | none => s
  | some _ => { s with
      nodes := s.nodes.modify (s.nodes.length - 1 - count) fun n ↦ (n.1, some d) }

/-- The values that can be referred to. -/
def slots (s : Stream) (slot : Nat) : Option Datum := (s.nodes.lookup slot).join

end Stream

/-! ### Properties -/

/-- The meanings of the handles of tags, latest first. -/
abbrev Handles := List (String × Tag)

/-- The handles that need no directive. -/
def standardHandles : Handles := [("!", .ofString "!"), ("!!", .standard "")]

/-- The full name of a tag. -/
def Handles.resolve? (handles : Handles) (handle : String) (suffix : Tag) : Option Tag :=
  if handle.isEmpty then some suffix
  else ((handles ++ standardHandles).lookup handle).map (· ++ suffix)

/-- What may stand before a node: its name and its tag. -/
structure Properties where
  anchor : Option String := none
  tag : Option Tag := none

namespace Properties

/-- Whether a node has neither a name nor a tag. -/
def isEmpty (p : Properties) : Bool := p.anchor.isNone && p.tag.isNone

/-- The tag of a scalar that is there. -/
def scalarTag (p : Properties) : Option Tag := p.tag.filter (· != .nonspecific)

/-- Reads the properties before a node, in either order. -/
def read? (handles : Handles) : List Token → Option (Properties × List Token)
  | .anchor a :: .tag h s :: rest | .tag h s :: .anchor a :: rest =>
    (handles.resolve? h s).map fun tag ↦ (⟨some a, some tag⟩, rest)
  | .anchor a :: rest => some (⟨some a, none⟩, rest)
  | .tag h s :: rest => (handles.resolve? h s).map fun tag ↦ (⟨none, some tag⟩, rest)
  | tokens => some ({}, tokens)

end Properties

/-! ### Nodes -/

/-- Whether the items of a mapping in block style, or the mapping, end before the tokens. -/
def endsBlockPart : List Token → Bool
  | .key :: _ | .value :: _ | .blockEnd :: _ => true
  | _ => false

/-- Whether an item in brackets ends before the tokens. -/
def endsBracketPart : List Token → Bool
  | .comma :: _ | .closeBracket :: _ => true
  | _ => false

/-- Whether an entry in braces ends before the tokens. -/
def endsBracePart : List Token → Bool
  | .comma :: _ | .closeBrace :: _ => true
  | _ => false

/-- Puts an item in front of the items behind it. -/
def consItem (d : Datum) (r : List Datum × Stream) : List Datum × Stream := (d :: r.1, r.2)

/-- Puts an entry in front of the entries behind it. -/
def consEntry (k v : Datum) (r : List (Datum × Datum) × Stream) : List (Datum × Datum) × Stream :=
  ((k, v) :: r.1, r.2)

mutual

/-- Reads a node. `inBlock` says whether it may be in block style, `inMapping` whether a sequence
may start without being further in, as below a key. -/
def readNode? (handles : Handles) (inBlock inMapping : Bool) :
    (fuel : Nat) → Stream → Option (Datum × Stream)
  | 0, _ => none
  | fuel + 1, s =>
    match s.tokens with
    | .alias name :: rest => (s.resolve? name).map fun d ↦ (d, s.withTokens rest)
    | tokens => do
      let (p, tokens) ← Properties.read? handles tokens
      let (d, s') ← readContent? handles inBlock inMapping p fuel
        ((s.withTokens tokens).announce p.anchor)
      return (d, s'.settle s.nodes.length p.anchor d)

/-- Reads a node behind its properties. -/
def readContent? (handles : Handles) (inBlock inMapping : Bool) (p : Properties) :
    (fuel : Nat) → Stream → Option (Datum × Stream)
  | 0, _ => none
  | fuel + 1, s =>
    let leftOut := if p.isEmpty then none else some (absent p.tag, s)
    let asSequence (r : List Datum × Stream) : Datum × Stream := (.sequence r.1, r.2)
    let asMapping (r : List (Datum × Datum) × Stream) : Datum × Stream := (.mapping r.1, r.2)
    match s.tokens with
    | .scalar style text :: rest =>
      some (.scalar (scalar p.scalarTag style text), s.withTokens rest)
    | .openBracket :: rest =>
      (readBracketed? handles true fuel (s.withTokens rest)).map asSequence
    | .openBrace :: rest => (readBraced? handles true fuel (s.withTokens rest)).map asMapping
    | .item :: _ =>
      if inMapping then (readInlineItems? handles fuel s).map asSequence else leftOut
    | .sequenceStart :: rest =>
      if inBlock then (readItems? handles fuel (s.withTokens rest)).map asSequence else leftOut
    | .mappingStart :: rest =>
      if inBlock then (readEntries? handles fuel (s.withTokens rest)).map asMapping else leftOut
    | _ => leftOut

/-- Reads the items of a sequence in block style, up to its end. -/
def readItems? (handles : Handles) : (fuel : Nat) → Stream → Option (List Datum × Stream)
  | 0, _ => none
  | fuel + 1, s =>
    match s.tokens with
    | .blockEnd :: rest => some ([], s.withTokens rest)
    | .item :: rest => do
      let s := s.withTokens rest
      let (d, s) ← match rest with
        | .item :: _ | .blockEnd :: _ => some (absent none, s)
        | _ => readNode? handles true false fuel s
      let r ← readItems? handles fuel s
      return consItem d r
    | _ => none

/-- Reads the items of a sequence that is not further in than the key it belongs to. -/
def readInlineItems? (handles : Handles) : (fuel : Nat) → Stream → Option (List Datum × Stream)
  | 0, _ => none
  | fuel + 1, s =>
    match s.tokens with
    | .item :: rest => do
      let s := s.withTokens rest
      let (d, s) ← match rest with
        | .item :: _ | .key :: _ | .value :: _ | .blockEnd :: _ => some (absent none, s)
        | _ => readNode? handles true false fuel s
      let r ← readInlineItems? handles fuel s
      return consItem d r
    | _ => some ([], s)

/-- Reads the entries of a mapping in block style, up to its end. -/
def readEntries? (handles : Handles) :
    (fuel : Nat) → Stream → Option (List (Datum × Datum) × Stream)
  | 0, _ => none
  | fuel + 1, s =>
    match s.tokens with
    | .blockEnd :: rest => some ([], s.withTokens rest)
    | .key :: rest => do
      let s := s.withTokens rest
      let (k, s) ←
        if endsBlockPart rest then some (absent none, s) else readNode? handles true true fuel s
      let (v, s) ← match s.tokens with
        | .value :: rest =>
          let s := s.withTokens rest
          if endsBlockPart rest then some (absent none, s) else readNode? handles true true fuel s
        | _ => some (absent none, s)
      let r ← readEntries? handles fuel s
      return consEntry k v r
    | _ => none

/-- Reads the items in brackets, up to the closing one. An item that is marked as a key is a mapping
of one entry. -/
def readBracketed? (handles : Handles) (isFirst : Bool) :
    (fuel : Nat) → Stream → Option (List Datum × Stream)
  | 0, _ => none
  | fuel + 1, s =>
    match s.tokens, isFirst with
    | .closeBracket :: rest, _ => some ([], s.withTokens rest)
    | .comma :: .closeBracket :: rest, false => some ([], s.withTokens rest)
    | .comma :: rest, false => do
      let (d, s) ← readBracketedItem? handles fuel (s.withTokens rest)
      let r ← readBracketed? handles false fuel s
      return consItem d r
    | _, true => do
      let (d, s) ← readBracketedItem? handles fuel s
      let r ← readBracketed? handles false fuel s
      return consItem d r
    | _, false => none

/-- Reads one item in brackets. -/
def readBracketedItem? (handles : Handles) : (fuel : Nat) → Stream → Option (Datum × Stream)
  | 0, _ => none
  | fuel + 1, s =>
    match s.tokens with
    | .key :: rest => do
      let s := s.withTokens rest
      let (k, s) ← match rest with
        -- A key that is left out takes the token behind it along.
        | .value :: rest | .comma :: rest | .closeBracket :: rest =>
          some (absent none, s.withTokens rest)
        | _ => readNode? handles false false fuel s
      let (v, s) ← match s.tokens with
        | .value :: rest =>
          let s := s.withTokens rest
          if endsBracketPart rest then some (absent none, s)
          else readNode? handles false false fuel s
        | _ => some (absent none, s)
      return (.mapping [(k, v)], s)
    | _ => readNode? handles false false fuel s

/-- Reads the entries in braces, up to the closing one. -/
def readBraced? (handles : Handles) (isFirst : Bool) :
    (fuel : Nat) → Stream → Option (List (Datum × Datum) × Stream)
  | 0, _ => none
  | fuel + 1, s =>
    match s.tokens, isFirst with
    | .closeBrace :: rest, _ => some ([], s.withTokens rest)
    | .comma :: .closeBrace :: rest, false => some ([], s.withTokens rest)
    | .comma :: rest, false => do
      let ((k, v), s) ← readBracedEntry? handles fuel (s.withTokens rest)
      let r ← readBraced? handles false fuel s
      return consEntry k v r
    | _, true => do
      let ((k, v), s) ← readBracedEntry? handles fuel s
      let r ← readBraced? handles false fuel s
      return consEntry k v r
    | _, false => none

/-- Reads one entry in braces: a key, marked or not, and its value. -/
def readBracedEntry? (handles : Handles) :
    (fuel : Nat) → Stream → Option ((Datum × Datum) × Stream)
  | 0, _ => none
  | fuel + 1, s =>
    match s.tokens with
    | .key :: rest => do
      let s := s.withTokens rest
      let isLeftOut := match rest with
        | .value :: _ => true
        | rest => endsBracePart rest
      let (k, s) ←
        if isLeftOut then some (absent none, s) else readNode? handles false false fuel s
      let (v, s) ← match s.tokens with
        | .value :: rest =>
          let s := s.withTokens rest
          if endsBracePart rest then some (absent none, s)
          else readNode? handles false false fuel s
        | _ => some (absent none, s)
      return ((k, v), s)
    | _ => do
      let (k, s) ← readNode? handles false false fuel s
      return ((k, absent none), s)

end

/-! ### Documents -/

/-- What the directives before a document say. -/
structure Directives where
  hasVersion : Bool := false
  handles : Handles := []

/-- Reads the directives before a document. None may be given twice. -/
def readDirectives? (d : Directives) : List Token → Option (Directives × List Token)
  | .version major minor :: rest =>
    if d.hasVersion || major != 1 || (minor != 1 && minor != 2) then none
    else readDirectives? { d with hasVersion := true } rest
  | .tagHandle handle meaning :: rest =>
    if (d.handles.lookup handle).isSome then none
    else readDirectives? { d with handles := (handle, meaning) :: d.handles } rest
  | tokens => some (d, tokens)

/-- Whether a document ends before it has a node. -/
def endsDocument : List Token → Bool
  | [] => true
  | .version _ _ :: _ | .tagHandle _ _ :: _ | .documentStart :: _ | .documentEnd :: _ => true
  | _ => false

/-- Whether nothing follows a document but marks of its end. -/
def isOver (tokens : List Token) : Bool := tokens.all (· == .documentEnd)

/-- A document, in which so many references may be followed: a hundred times its size. Records are
mappings and nothing else. -/
def source (d : Datum) (slots : Nat → Option Datum) : Datum.Source :=
  ⟨d, ⟨slots, false⟩, 100 * d.size⟩

/-- A document in which nothing is named. -/
def plainSource (d : Datum) : Datum.Source := source d fun _ ↦ none

/-- Reads the node of a document, behind which nothing follows. -/
def readRoot? (handles : Handles) (tokens : List Token) : Option Datum.Source := do
  let (d, s) ← readNode? handles true false (4 * tokens.length + 4) { tokens }
  if isOver s.tokens then some (source d s.slots) else none

/-- Reads the tokens of a text of at most one document. -/
def readDocument? (tokens : List Token) : Option Datum.Source :=
  match tokens with
  | [] => some (plainSource void)
  | .version _ _ :: _ | .tagHandle _ _ :: _ | .documentStart :: _ => do
    match ← readDirectives? {} tokens with
    | (d, .documentStart :: rest) =>
      if endsDocument rest then if isOver rest then some (plainSource (absent none)) else none
      else readRoot? d.handles rest
    | _ => none
  | _ => readRoot? [] tokens

/-- Whether a character may stand in a YAML text. -/
def isAllowed (c : Char) : Bool :=
  let n := c.toNat
  n == 0x9 || n == 0xA || n == 0xD || (0x20 ≤ n && n ≤ 0x7E) || n == 0x85 ||
    (0xA0 ≤ n && n ≤ 0xD7FF) || (0xE000 ≤ n && n ≤ 0xFFFD) || 0x10000 ≤ n

/-- **Reads a YAML text.** -/
def read? (s : String) : Option Datum.Source :=
  let text := s.toList
  if text.all isAllowed then (Token.ofText? text).bind readDocument? else none

end MethodFingerprint.Yaml
