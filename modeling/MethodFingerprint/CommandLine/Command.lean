import MethodFingerprint.CommandLine.Options
import MethodFingerprint.Config
import MethodFingerprint.History.Run

/-!
# Commands

A command line names one of four commands: to list the methods of a corpus, to show the features of
a method, to solve a method for its fingerprints, or to list the runs of a history. Options that say
how much is reported besides may stand on either side of the command's name; on the same side they
exclude each other.
-/

namespace MethodFingerprint.CommandLine

/-- What to solve, and how. -/
structure SolveOptions where
  corpus : String
  target : MethodId
  config : Option String
  overrides : Config.Overrides
  strategy : Strategy
  /-- How many fingerprints are shown. -/
  limit : Option Nat
  /-- The history in which the run is recorded. -/
  record : Option String
  deriving DecidableEq, Repr

/-- A command. -/
inductive Command where
  | methods (corpus : String) (filter : Option String)
  | features (corpus : String) (target : MethodId)
  | solve (options : SolveOptions)
  | history (path : String) (target : Option MethodId)
  deriving DecidableEq, Repr

/-- A command and how to answer it. -/
structure Request where
  command : Command
  /-- Whether the answer is JSON. -/
  asJson : Bool
  /-- Whether only errors are reported. -/
  quiet : Bool
  deriving DecidableEq, Repr

/-! ### The options of the commands -/

/-- The options that every command takes. -/
def reportingOptions : List OptionSpec := [⟨"verbose", .flag, false⟩, ⟨"quiet", .flag, false⟩]

/-- The options of the command with a name. -/
def optionsOf? : String → Option (List OptionSpec)
  | "methods" => some [⟨"corpus", .path, true⟩, ⟨"filter", .text, false⟩, ⟨"json", .flag, false⟩]
  | "features" => some [⟨"corpus", .path, true⟩, ⟨"method", .text, true⟩, ⟨"json", .flag, false⟩]
  | "solve" =>
    some [⟨"corpus", .path, true⟩, ⟨"method", .text, true⟩, ⟨"config", .path, false⟩,
      ⟨"no-return-type", .flag, false⟩, ⟨"no-parameters", .flag, false⟩,
      ⟨"no-strings", .flag, false⟩, ⟨"no-access-flags", .flag, false⟩,
      ⟨"max-branches", .number, false⟩, ⟨"timeout-ms", .number, false⟩, ⟨"greedy", .flag, false⟩,
      ⟨"limit", .number, false⟩, ⟨"json", .flag, false⟩, ⟨"record", .path, false⟩]
  | "history" => some [⟨"db", .path, true⟩, ⟨"method", .text, false⟩, ⟨"json", .flag, false⟩]
  | _ => none

/-- The command with a name and options. -/
def commandOf? (name : String) (v : Values) : Option Command := do
  match name with
  | "methods" => return .methods (← v.text? "corpus") (v.text? "filter")
  | "features" => return .features (← v.text? "corpus") ⟨← v.text? "method"⟩
  | "solve" =>
    let overrides := {
      noReturnType := v.has "no-return-type", noParameters := v.has "no-parameters"
      noStrings := v.has "no-strings", noAccessFlags := v.has "no-access-flags"
      maxBranches := v.number? "max-branches", timeoutMs := v.number? "timeout-ms" }
    return .solve ⟨← v.text? "corpus", ⟨← v.text? "method"⟩, v.text? "config", overrides,
      if v.has "greedy" then .greedy else .exhaustive, v.number? "limit", v.text? "record"⟩
  | "history" => return .history (← v.text? "db") ((v.text? "method").map (⟨·⟩))
  | _ => none

/-! ### Reading a command line -/

/-- Whether options exclude each other. -/
def isContradictory (v : Values) : Bool := v.has "verbose" && v.has "quiet"

/-- Reads the words behind the name of a command; `outer` are the options before it. -/
def readCommand (name : String) (words : List String) (outer : Values) : Except Stop Request :=
  match optionsOf? name with
  | none => .error .misuse
  | some options =>
    match readOptions (options ++ reportingOptions) words [] with
    | .error stop => .error stop
    | .ok v =>
      if !isSufficient options v || isContradictory v || isContradictory outer then .error .misuse
      else match commandOf? name v with
        | none => .error .misuse
        | some command => .ok ⟨command, v.has "json", v.has "quiet" || outer.has "quiet"⟩

/-- Reads the words from the first on; `outer` are the options already read. -/
def readWords : (words : List String) → (outer : Values) → Except Stop Request
  | [], _ => .error .misuse
  | word :: words, outer =>
    match Word.ofString word with
    | .short 'h' | .long "help" none => .error .help
    | .short 'V' | .long "version" none => .error .version
    | .long name none =>
      if reportingOptions.any (·.name == name) && !outer.has name then
        readWords words (outer ++ [(name, .set)])
      else .error .misuse
    | .other =>
      if word == "help" then
        match words with
        | [] => .error .help
        | [name] =>
          .error (if name == "help" || (optionsOf? name).isSome then .help else .misuse)
        | _ => .error .misuse
      else readCommand word words outer
    | _ => .error .misuse

/-- **Reads a command line.** -/
def Request.ofWords (words : List String) : Except Stop Request := readWords words []

end MethodFingerprint.CommandLine
