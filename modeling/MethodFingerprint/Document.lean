import MethodFingerprint.Document.Json.Read
import MethodFingerprint.Document.Path
import MethodFingerprint.Document.Yaml.Read

/-!
# Documents

Corpora and configurations are kept in files. The extension of a file decides on its **format**, in
upper or lower case; then the file is read, then its text is read as a value of that format, and
last the value as what it is wanted for. The first of these steps that fails names the error.
-/

namespace MethodFingerprint.Document

/-- The formats of documents. -/
inductive Format where
  | json | yaml
  deriving DecidableEq, Repr

namespace Format

/-- The format of the files with an extension. -/
def ofExtension? (extension : String) : Option Format :=
  match extension.toLower with
  | "json" => some json
  | "yaml" | "yml" => some yaml
  | _ => none

/-- The format of the file at a path. -/
def ofPath? (path : String) : Option Format :=
  (Path.extension? path).bind ofExtension?

/-- Reads a text as data. -/
def source? (format : Format) (text : String) : Option Datum.Source :=
  match format with
  | json => (Json.read? text).map Json.source
  | yaml => Yaml.read? text

/-- The name of the format. -/
def name : Format → String
  | json => "JSON"
  | yaml => "YAML"

end Format

/-- Why a file cannot be read. -/
inductive ReadFailure where
  | notFound
  | notDirectory
  | isDirectory
  /-- Any other reason, in the words of the system. -/
  | other (reason : String)
  deriving DecidableEq, Repr

namespace ReadFailure

/-- The reason in words. -/
def message : ReadFailure → String
  | notFound => "No such file or directory (os error 2)"
  | notDirectory => "Not a directory (os error 20)"
  | isDirectory => "Is a directory (os error 21)"
  | other reason => reason

/-- The failure of reading bytes as text. -/
def notText : ReadFailure := other "stream did not contain valid UTF-8"

end ReadFailure

/-- Why a document cannot be loaded. -/
inductive LoadError where
  | unsupportedFormat (path : String)
  | unreadable (path : String) (failure : ReadFailure)
  /-- The text is not of the format, or its value is not what is wanted. -/
  | malformed (path : String) (format : Format)
  deriving DecidableEq, Repr

namespace LoadError

/-- The error in words. -/
def message : LoadError → String
  | unsupportedFormat path =>
    "Unsupported document format for " ++ path ++ "; expected .json, .yaml or .yml"
  | unreadable path failure => "Failed to read " ++ path ++ ": " ++ failure.message
  | malformed path format => "Failed to parse " ++ format.name ++ " document " ++ path

end LoadError

/-- The contents of a file, or why there are none. -/
abbrev Contents := Except ReadFailure ByteArray

/-- **Loads the document at a path**, given the contents of the file. -/
def load {α : Type} (read : Datum.Reader α) (path : String) (contents : Contents) :
    Except LoadError α :=
  match Format.ofPath? path with
  | none => .error (.unsupportedFormat path)
  | some format =>
    match contents with
    | .error failure => .error (.unreadable path failure)
    | .ok bytes =>
      match String.fromUTF8? bytes with
      | none => .error (.unreadable path .notText)
      | some text =>
        match (format.source? text).bind (·.read? read) with
        | none => .error (.malformed path format)
        | some value => .ok value

end MethodFingerprint.Document
