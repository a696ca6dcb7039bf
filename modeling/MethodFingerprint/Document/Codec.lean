import MethodFingerprint.Document.Datum
import MethodFingerprint.Document.Json.Read

/-!
# Codecs

A `Codec` writes values of one type as texts and reads them again. Whoever keeps texts takes the
codec as a parameter, so that nothing depends on how it goes about it. `Codec.ofJson` is the one for
values that have a form as JSON.
-/

namespace MethodFingerprint

/-- Why a value cannot be written as a JSON text, or be read from one. -/
structure JsonError where
  reason : String
  deriving DecidableEq, Repr

/-- A way to write values as texts and to read them. -/
structure Codec (α : Type) where
  encode : α → Except JsonError String
  decode : String → Except JsonError α

/-- The codec of compact JSON texts. -/
def Codec.ofJson {α : Type} (json : α → Json) (read : Datum.Reader α) : Codec α where
  encode a := .ok (json a).compact
  decode text :=
    match (Json.read? text).bind (·.readAs? read) with
    | some a => .ok a
    | none => .error ⟨"the text does not have the expected form"⟩

end MethodFingerprint
