import MethodFingerprint.Document
import MethodFingerprint.Document.Record

/-!
# Corpora

A corpus is the list of the methods of one build, in the order in which they were given. Repeated
ids are not resolved here but by the index.
-/

namespace MethodFingerprint

/-- The methods of one build. -/
structure Corpus where
  methods : List Method
  deriving DecidableEq, Repr

namespace Corpus

/-- The ids of all records, repeated ones as often as they occur. -/
def ids (c : Corpus) : List MethodId := c.methods.map Method.id

/-- Reads a corpus. -/
def ofDatum : Datum.Reader Corpus := fun d ↦ do
  let fields ← d.readFields ["methods"]
  let methods ← fields.required "methods" (Datum.readSequence Method.ofDatum)
  return { methods }

/-- Loads a corpus from a file. -/
def load (path : String) (contents : Document.Contents) : Except Document.LoadError Corpus :=
  Document.load ofDatum path contents

end Corpus

end MethodFingerprint
