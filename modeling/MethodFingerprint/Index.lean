import MethodFingerprint.Feature.Extract
import MethodFingerprint.Index.Slots
import Std.Data.HashMap

/-!
# The index of a corpus

An `Index` answers, for every feature, which methods carry it. Methods are numbered by slots in the
order in which their ids first occur. A record whose id was given before **replaces** the record it
repeats and keeps its slot, so the index describes the last record of every id.

The posting list of a feature is the ascending list of the slots whose methods carry it. The lists
are built from the last slot to the first, each slot being put in front, and so come out ascending
without sorting.

An index belongs to one corpus and one choice of settings and is never changed.
-/

namespace MethodFingerprint

/-- The id of a method that is not in the corpus. -/
structure UnknownMethod where
  id : MethodId
  deriving DecidableEq, Repr

namespace UnknownMethod

/-- The error in words. -/
def message (e : UnknownMethod) : String :=
  "Method ID not found: " ++ e.id.text

end UnknownMethod

/-- What an index keeps of a method. -/
structure Entry where
  id : MethodId
  features : FeatureSet
  /-- The number of declared parameters, whatever the settings. -/
  parameterCount : Nat
  deriving DecidableEq

namespace Entry

/-- The entry of a record under the given settings. -/
def ofMethod (settings : Settings) (m : Method) : Entry :=
  ⟨m.id, settings.features m, m.parameters.length⟩

end Entry

/-! ### Numbering the methods -/

/-- The methods met so far, numbered by first occurrence. -/
structure Roster where
  entries : Array Entry
  slots : Std.HashMap MethodId Slot
  /-- The ids met again, once for every record that replaced an earlier one. -/
  repeated : Array MethodId

namespace Roster

/-- The roster before any record. -/
def empty : Roster := ⟨#[], ∅, #[]⟩

/-- Adds an entry, in the place of the one with the same id if there is one. -/
def record (r : Roster) (e : Entry) : Roster :=
  match r.slots[e.id]? with
  | some slot =>
    { r with entries := r.entries.setIfInBounds slot e, repeated := r.repeated.push e.id }
  | none => { r with entries := r.entries.push e, slots := r.slots.insert e.id r.entries.size }

/-- The roster of a list of records. -/
def ofMethods (settings : Settings) (methods : List Method) : Roster :=
  methods.foldl (fun r m ↦ r.record (.ofMethod settings m)) empty

end Roster

/-! ### Posting lists -/

/-- For every feature, the slots that carry it. -/
abbrev Postings := Std.HashMap Feature (List Slot)

namespace Postings

/-- Puts a slot in front of the list of each of the given features. -/
def add (slot : Slot) (features : List Feature) (p : Postings) : Postings :=
  features.foldl (fun p f ↦ p.insert f (slot :: p.getD f [])) p

/-- The posting lists of numbered entries, from the last to the first. -/
def ofEntries (entries : List (Entry × Slot)) : Postings :=
  entries.foldr (fun e p ↦ add e.2 e.1.features.toList p) ∅

end Postings

/-! ### The index -/

/-- Which methods of a corpus carry which features. -/
structure Index where
  settings : Settings
  entries : Array Entry
  slots : Std.HashMap MethodId Slot
  postings : Postings
  /-- The ids given more than once, once for every replaced record. -/
  repeated : Array MethodId

namespace Index

/-- The index of a corpus. -/
def build (methods : List Method) (settings : Settings) : Index :=
  let roster := Roster.ofMethods settings methods
  { settings, entries := roster.entries, slots := roster.slots,
    postings := .ofEntries roster.entries.toList.zipIdx, repeated := roster.repeated }

/-- The number of distinct methods. -/
def size (x : Index) : Nat := x.entries.size

/-- Whether there are no methods. -/
def isEmpty (x : Index) : Bool := x.entries.isEmpty

/-- The number of distinct features that some method carries. -/
def featureCount (x : Index) : Nat := x.postings.size

/-- The ids in slot order. -/
def ids (x : Index) : List MethodId := x.entries.toList.map Entry.id

/-! ### Looking methods up -/

/-- Whether a method with an id is in the corpus. -/
def contains (x : Index) (id : MethodId) : Bool := x.slots.contains id

/-- The slot of a method. -/
def slot (x : Index) (id : MethodId) : Except UnknownMethod Slot :=
  match x.slots[id]? with
  | some slot => .ok slot
  | none => .error ⟨id⟩

/-- The entry at a slot. -/
def entryAt? (x : Index) (slot : Slot) : Option Entry := x.entries[slot]?

/-- The entry of a method. -/
def entry (x : Index) (id : MethodId) : Except UnknownMethod Entry :=
  match x.slots[id]?.bind x.entryAt? with
  | some e => .ok e
  | none => .error ⟨id⟩

/-- The features of a method. -/
def lookup (x : Index) (id : MethodId) : Except UnknownMethod FeatureSet :=
  (x.entry id).map Entry.features

/-- The number of parameters a method declares. -/
def parameterCount (x : Index) (id : MethodId) : Except UnknownMethod Nat :=
  (x.entry id).map Entry.parameterCount

/-- The features at a slot, none past the last. -/
def featuresAt (x : Index) (slot : Slot) : FeatureSet :=
  ((x.entryAt? slot).map Entry.features).getD ∅

/-- The ids at a list of slots, in the same order. -/
def idsOf (x : Index) (slots : List Slot) : List MethodId :=
  slots.filterMap fun slot ↦ (x.entryAt? slot).map Entry.id

/-! ### Looking features up -/

/-- The slots whose methods carry a feature, ascending. -/
def candidates (x : Index) (f : Feature) : List Slot := x.postings.getD f []

/-- Narrows candidates down by one feature after the other, stopping when none is left. -/
def narrow (x : Index) : List Slot → List Feature → List Slot
  | current, [] => current
  | current, f :: fs =>
    if current.isEmpty then current else x.narrow (Slots.intersect current (x.candidates f)) fs

/-- The slots whose methods carry every one of the features, ascending. No feature narrows nothing
down, so the empty list has every slot. -/
def candidatesOf (x : Index) : List Feature → List Slot
  | [] => List.range x.size
  | f :: fs => x.narrow (x.candidates f) fs

end Index

end MethodFingerprint
