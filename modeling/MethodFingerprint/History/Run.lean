import MethodFingerprint.Document.Record
import MethodFingerprint.Method

/-!
# Runs

A run is a search that has been carried out: what it looked for, on which corpus, how, and what it
found. Its fingerprints are ranked and come with the pattern they were rendered as, so that a run
can be used without the corpus.
-/

namespace MethodFingerprint

/-- How the fingerprints of a run were found. -/
inductive Strategy where
  /-- All minimal ones were looked for. -/
  | exhaustive
  /-- One minimal one was looked for. -/
  | greedy
  deriving DecidableEq, Repr

namespace Strategy

/-- The name of a strategy. -/
def name : Strategy → String
  | exhaustive => "exhaustive"
  | greedy => "greedy"

/-- The strategy with a name. -/
def ofName? : String → Option Strategy
  | "exhaustive" => some exhaustive
  | "greedy" => some greedy
  | _ => none

/-- The strategy a name stands for; a name that is not known stands for the exhaustive one. -/
def ofName (name : String) : Strategy := (ofName? name).getD exhaustive

/-- A strategy is given by its name, or as a mapping of its name to nothing. -/
def ofDatum : Datum.Reader Strategy
  | .mapping [(key, .scalar { presence := .missing, .. })] => key.readText >>= (ofName? ·)
  | d => d.readText >>= (ofName? ·)

/-- A strategy is known by its name. -/
@[simp] theorem ofName_name (s : Strategy) : ofName s.name = s := by cases s <;> rfl

end Strategy

/-- A fingerprint of a run. -/
structure RankedFingerprint where
  rank : UInt64
  features : List Feature
  pattern : String
  deriving DecidableEq, Repr

namespace RankedFingerprint

/-- Reads the features of a fingerprint; they are kept as they are. -/
def readFeatures : Datum.Reader (List Feature) := fun d ↦ do
  return (← d.readTexts).map (⟨·⟩)

/-- Reads a fingerprint. -/
def ofDatum : Datum.Reader RankedFingerprint := fun d ↦ do
  let fields ← d.readFields ["rank", "features", "pattern"]
  let rank ← fields.required "rank" (Datum.readNatural wordBound)
  let features ← fields.required "features" readFeatures
  let pattern ← fields.required "pattern" Datum.readText
  return ⟨.ofNat rank, features, pattern⟩

/-- Features as an array. -/
def featuresJson (features : List Feature) : Json := .ofStrings (features.map Feature.token)

/-- A fingerprint with all its fields. -/
def json (f : RankedFingerprint) : Json :=
  .ofFields [("rank", .ofNat f.rank.toNat), ("features", featuresJson f.features),
    ("pattern", .ofString f.pattern)]

/-- The fingerprint as one line: its rank and its features. -/
def display (f : RankedFingerprint) : String :=
  let tokens := ", ".intercalate (f.features.map Feature.token)
  "#" ++ toString f.rank.toNat ++ " \x7b" ++ tokens ++ "\x7d"

end RankedFingerprint

/-- A search that has been carried out. -/
structure Run where
  target : MethodId
  /-- The digest of the corpus file, if it is known. -/
  corpusHash : Option String
  settings : Settings
  strategy : Strategy
  /-- Whether no limit cut the search short. -/
  complete : Bool
  startedAt : String
  finishedAt : String
  fingerprints : List RankedFingerprint
  deriving DecidableEq, Repr

namespace Run

/-- The fields of a run, in order. -/
def fieldNames : List String :=
  ["target", "corpus_hash", "settings", "strategy", "complete", "started_at", "finished_at",
    "fingerprints"]

/-- Reads a run. Only the digest of the corpus may be left out. -/
def ofDatum : Datum.Reader Run := fun d ↦ do
  let fields ← d.readFields fieldNames
  let target ← fields.required "target" Datum.readText
  let corpusHash ← fields.withDefault "corpus_hash" none (Datum.readOptional Datum.readText)
  let settings ← fields.required "settings" Settings.ofDatum
  let strategy ← fields.required "strategy" Strategy.ofDatum
  let complete ← fields.required "complete" Datum.readFlag
  let startedAt ← fields.required "started_at" Datum.readText
  let finishedAt ← fields.required "finished_at" Datum.readText
  let fingerprints ← fields.required "fingerprints" (Datum.readSequence RankedFingerprint.ofDatum)
  return ⟨⟨target⟩, corpusHash, settings, strategy, complete, startedAt, finishedAt, fingerprints⟩

/-- A run with all its fields. -/
def json (r : Run) : Json :=
  .ofFields [("target", .ofString r.target.text),
    ("corpus_hash", .ofOption .ofString r.corpusHash), ("settings", r.settings.json),
    ("strategy", .ofString r.strategy.name), ("complete", .bool r.complete),
    ("started_at", .ofString r.startedAt), ("finished_at", .ofString r.finishedAt),
    ("fingerprints", .array (r.fingerprints.map RankedFingerprint.json))]

end Run

end MethodFingerprint
