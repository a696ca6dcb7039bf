import MethodFingerprint.Document
import MethodFingerprint.Document.Record

/-!
# Configurations

A configuration holds the settings and the limits of a search. It is loaded from a file or the
default one, and single values of it can be overridden: a category can be switched off, not on, and
a limit replaced, not lifted.
-/

namespace MethodFingerprint

/-- The settings and the limits of a search. -/
structure Config where
  settings : Settings := {}
  budget : Budget := .unlimited
  deriving DecidableEq, Repr

namespace Config

/-- Reads a configuration. -/
def ofDatum : Datum.Reader Config := fun d ↦ do
  let defaults : Config := {}
  let fields ← d.readFields ["settings", "budget"]
  let settings ← fields.withDefault "settings" defaults.settings Settings.ofDatum
  let budget ← fields.withDefault "budget" defaults.budget Budget.ofDatum
  return { settings, budget }

/-- Loads a configuration from a file. -/
def load (path : String) (contents : Document.Contents) : Except Document.LoadError Config :=
  Document.load ofDatum path contents

/-- What is to be changed in a configuration. -/
structure Overrides where
  noReturnType : Bool := false
  noParameters : Bool := false
  noStrings : Bool := false
  noAccessFlags : Bool := false
  maxBranches : Option Nat := none
  /-- The limit on the duration, in milliseconds. -/
  timeoutMs : Option Nat := none
  deriving DecidableEq, Repr

/-- **Overrides a configuration.** -/
def override (c : Config) (o : Overrides) : Config where
  settings := { c.settings with
    useReturnType := c.settings.useReturnType && !o.noReturnType
    useParameters := c.settings.useParameters && !o.noParameters
    useStrings := c.settings.useStrings && !o.noStrings
    useAccessFlags := c.settings.useAccessFlags && !o.noAccessFlags }
  budget := {
    maxBranches := o.maxBranches.or c.budget.maxBranches
    maxDurationMs := o.timeoutMs.or c.budget.maxDurationMs }

/-- Why a configuration could not be loaded from the file it was asked for. -/
structure Unresolved where
  path : String
  error : Document.LoadError
  deriving DecidableEq, Repr

namespace Unresolved

/-- What was being done. -/
def context (e : Unresolved) : String := "Failed to load config from " ++ e.path

end Unresolved

/-- **The configuration to use**: the one in a file, if a file is given, and the default one if not,
with what is overridden. -/
def resolve (file : Option (String × Document.Contents)) (o : Overrides) :
    Except Unresolved Config :=
  match file with
  | none => .ok (({} : Config).override o)
  | some (path, contents) =>
    match load path contents with
    | .error error => .error ⟨path, error⟩
    | .ok c => .ok (c.override o)

end Config

end MethodFingerprint
