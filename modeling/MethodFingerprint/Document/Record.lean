import MethodFingerprint.Document.Datum
import MethodFingerprint.Feature.Extract
import MethodFingerprint.Search.Budget

/-!
# Methods, settings and limits as data

How the values the library works on are given in documents and written down. Every one is a record
whose fields have fixed names and a fixed order; what may be left out has a default.
-/

namespace MethodFingerprint

/-- Numbers that are kept in 64 bits are below this. -/
def wordBound : Nat := UInt64.size

namespace Method

/-- The fields of a method, in order. -/
def fieldNames : List String :=
  ["defining_class", "name", "access_flags", "return_type", "parameters", "opcodes", "strings"]

/-- Reads a method. The types and the name must be given. -/
def ofDatum : Datum.Reader Method := fun d ↦ do
  let fields ← d.readFields fieldNames
  let definingClass ← fields.required "defining_class" Datum.readText
  let name ← fields.required "name" Datum.readText
  let accessFlags ← fields.withDefault "access_flags" 0 (Datum.readNatural UInt32.size)
  let returnType ← fields.required "return_type" Datum.readText
  let parameters ← fields.withDefault "parameters" [] Datum.readTexts
  let opcodes ← fields.withDefault "opcodes" [] Datum.readTexts
  let strings ← fields.withDefault "strings" [] Datum.readTexts
  return ⟨definingClass, name, .ofNat accessFlags, returnType, parameters, opcodes, strings⟩

end Method

namespace Settings

/-- The fields of settings, in order. -/
def fieldNames : List String :=
  ["use_return_type", "use_parameters", "use_strings", "use_access_flags", "use_opcodes"]

/-- Reads settings. -/
def ofDatum : Datum.Reader Settings := fun d ↦ do
  let defaults : Settings := {}
  let fields ← d.readFields fieldNames
  let useReturnType ← fields.withDefault "use_return_type" defaults.useReturnType Datum.readFlag
  let useParameters ← fields.withDefault "use_parameters" defaults.useParameters Datum.readFlag
  let useStrings ← fields.withDefault "use_strings" defaults.useStrings Datum.readFlag
  let useAccessFlags ← fields.withDefault "use_access_flags" defaults.useAccessFlags Datum.readFlag
  let useOpcodes ← fields.withDefault "use_opcodes" defaults.useOpcodes Datum.readFlag
  return { useReturnType, useParameters, useStrings, useAccessFlags, useOpcodes }

/-- Settings with all their fields. -/
def json (s : Settings) : Json :=
  .ofFields [("use_return_type", .bool s.useReturnType), ("use_parameters", .bool s.useParameters),
    ("use_strings", .bool s.useStrings), ("use_access_flags", .bool s.useAccessFlags),
    ("use_opcodes", .bool s.useOpcodes)]

end Settings

namespace Budget

/-- The fields of a budget, in order. -/
def fieldNames : List String := ["max_branches", "max_duration_ms"]

/-- A limit that may be given as nothing or left out. -/
def limit (fields : Datum.Fields) (name : String) : Datum.Reading (Option Nat) :=
  fields.withDefault name none (Datum.readOptional (Datum.readNatural wordBound))

/-- Reads a budget. -/
def ofDatum : Datum.Reader Budget := fun d ↦ do
  let fields ← d.readFields fieldNames
  let maxBranches ← limit fields "max_branches"
  let maxDurationMs ← limit fields "max_duration_ms"
  return { maxBranches, maxDurationMs }

end Budget

end MethodFingerprint
