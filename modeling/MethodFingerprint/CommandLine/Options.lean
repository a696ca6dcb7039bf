import MethodFingerprint.Text.Decimal

/-!
# Options on a command line

An option is a word with two dashes in front. A **flag** stands alone; any other option has a value,
the next word or what follows an equals sign. A value in a word of its own must not look like an
option. No option may be given twice. The words are read from left to right and the first that is
wrong decides, so that asking for help before it is still answered.
-/

namespace MethodFingerprint.CommandLine

/-- What an option takes. -/
inductive Kind where
  | flag
  /-- Any text. -/
  | text
  /-- A text that is not empty. -/
  | path
  /-- A number of at most 64 bits; a plus sign may precede it. -/
  | number
  deriving DecidableEq, Repr

/-- An option. -/
structure OptionSpec where
  name : String
  kind : Kind
  isRequired : Bool := false
  deriving DecidableEq, Repr

/-- What an option has been given. -/
inductive Value where
  | set
  | text (value : String)
  | number (value : Nat)
  deriving DecidableEq, Repr

/-- Why reading words ends before a command is known. -/
inductive Stop where
  /-- The words are not a command. -/
  | misuse
  | help
  | version
  deriving DecidableEq, Repr

/-- The options that have been given. -/
abbrev Values := List (String × Value)

namespace Values

/-- Whether an option has been given. -/
def has (v : Values) (name : String) : Bool := (v.lookup name).isSome

/-- The text that an option has been given. -/
def text? (v : Values) (name : String) : Option String :=
  match v.lookup name with
  | some (.text s) => some s
  | _ => none

/-- The number that an option has been given. -/
def number? (v : Values) (name : String) : Option Nat :=
  match v.lookup name with
  | some (.number n) => some n
  | _ => none

end Values

/-- Reads the value of an option. -/
def Kind.read? (kind : Kind) (s : String) : Option Value :=
  match kind with
  | .flag => none
  | .text => some (.text s)
  | .path => if s.isEmpty then none else some (.text s)
  | .number => (Text.signedDigits? UInt64.size s.toList).map .number

/-- What a word is. -/
inductive Word where
  /-- Two dashes and nothing else: no options follow. -/
  | divider
  /-- An option, with what follows an equals sign. -/
  | long (name : String) (value : Option String)
  /-- One dash and letters. -/
  | short (first : Char)
  | other
  deriving DecidableEq, Repr

namespace Word

/-- Reads a word. -/
def ofString (s : String) : Word :=
  match s.toList with
  | ['-', '-'] => divider
  | '-' :: '-' :: rest =>
    match rest.dropWhile (· != '=') with
    | [] => long (String.ofList rest) none
    | _ :: value => long (String.ofList (rest.takeWhile (· != '='))) (some (String.ofList value))
  | '-' :: c :: _ => short c
  | _ => other

end Word

/-- Adds what an option has been given, unless it was given before. -/
def add (v : Values) (o : OptionSpec) (value : Option Value) : Except Stop Values :=
  match value with
  | none => .error .misuse
  | some value => if v.has o.name then .error .misuse else .ok (v ++ [(o.name, value)])

/-- **Reads words that are options**; `v` are those already read. -/
def readOptions (options : List OptionSpec) : (words : List String) → Values → Except Stop Values
  | [], v => .ok v
  | word :: words, v =>
    match Word.ofString word with
    | .divider => if words.isEmpty then .ok v else .error .misuse
    | .short 'h' | .long "help" none => .error .help
    | .short _ | .other => .error .misuse
    | .long name given =>
      match options.find? (·.name == name) with
      | none => .error .misuse
      | some o =>
        if o.kind = .flag then
          match add v o (if given.isNone then some .set else none) with
          | .error stop => .error stop
          | .ok v => readOptions options words v
        else match given with
          | some s =>
            match add v o (o.kind.read? s) with
            | .error stop => .error stop
            | .ok v => readOptions options words v
          | none =>
            match words with
            | [] => .error .misuse
            | s :: words =>
              match add v o (if Word.ofString s = .other then o.kind.read? s else none) with
              | .error stop => .error stop
              | .ok v => readOptions options words v

/-- Whether every option that is required has been given. -/
def isSufficient (options : List OptionSpec) (v : Values) : Bool :=
  options.all fun o ↦ !o.isRequired || v.has o.name

end MethodFingerprint.CommandLine
