import MethodFingerprint.Index
import MethodFingerprint.Pattern.Render
import MethodFingerprint.Search.Greedy
import MethodFingerprint.Search.Outcome

/-!
# Sessions

A **snapshot** is a corpus with its index; it never changes. A **session** has a current snapshot
and replaces it when the corpus or the settings change. Whoever took a snapshot before keeps it, so
everything asked of a snapshot is answered from one corpus under one choice of settings.

Every snapshot of a session has a **version**. Two snapshots of one session with the same version
are the same snapshot.

A `Client` is a user of a session: it holds a snapshot and may have started searches, each bound to
the snapshot that was current at that time and finished whenever the client asks for them.
-/

namespace MethodFingerprint

/-- A corpus with its index. -/
structure Snapshot where
  version : Nat
  corpus : List Method
  index : Index

namespace Snapshot

/-- Indexes a corpus. -/
def build (version : Nat) (corpus : List Method) (settings : Settings) : Snapshot :=
  ⟨version, corpus, .build corpus settings⟩

/-- The settings the corpus is indexed under. -/
def settings (s : Snapshot) : Settings := s.index.settings

/-- Every minimal fingerprint of a method. -/
def solve (s : Snapshot) (budget : Budget) (clock : Clock) (target : MethodId) :
    Except SearchError Outcome :=
  s.index.search budget clock target

/-- One minimal fingerprint of a method. -/
def solveGreedy (s : Snapshot) (target : MethodId) : Except SearchError Fingerprint :=
  s.index.greedyFingerprint target

/-- The features of a method. -/
def features (s : Snapshot) (target : MethodId) : Except UnknownMethod FeatureSet :=
  s.index.lookup target

/-- A fingerprint of a method as a pattern, with as many parameters as the method has. -/
def render (s : Snapshot) (target : MethodId) (fingerprint : Fingerprint) :
    Except UnknownMethod Pattern.Rendered :=
  (s.index.parameterCount target).map fun count ↦
    Pattern.render (some count) fingerprint.toList

/-- All features of a method as a pattern. -/
def renderFull (s : Snapshot) (target : MethodId) : Except UnknownMethod Pattern.Rendered :=
  match s.features target with
  | .error e => .error e
  | .ok features => s.render target features

end Snapshot

/-- A current snapshot that can be replaced. -/
structure Session where
  current : Snapshot

namespace Session

/-- A session on a corpus. -/
def start (corpus : List Method) (settings : Settings) : Session :=
  ⟨.build 0 corpus settings⟩

/-- Replaces the corpus and keeps the settings. The snapshot is always a new one. -/
def setCorpus (s : Session) (corpus : List Method) : Session :=
  ⟨.build (s.current.version + 1) corpus s.current.settings⟩

/-- Replaces the settings and keeps the corpus. Settings that are in force already change nothing.
-/
def setSettings (s : Session) (settings : Settings) : Session :=
  if s.current.settings = settings then s
  else ⟨.build (s.current.version + 1) s.current.corpus settings⟩

end Session

/-! ### Clients -/

/-- A search that has been started on a snapshot. -/
structure PendingSearch where
  snapshot : Snapshot
  target : MethodId
  budget : Budget

namespace PendingSearch

/-- What the search finds, whenever it is finished. -/
def outcome (p : PendingSearch) (clock : Clock) : Except SearchError Outcome :=
  p.snapshot.solve p.budget clock p.target

end PendingSearch

/-- A user of a session. -/
structure Client where
  session : Session
  /-- The snapshot the client holds on to. -/
  held : Snapshot
  /-- The searches the client has started, in that order. -/
  pending : List PendingSearch

namespace Client

/-- A client that starts a session and holds its first snapshot. -/
def start (corpus : List Method) (settings : Settings) : Client :=
  let session := Session.start corpus settings
  ⟨session, session.current, []⟩

/-- Replaces the corpus of the session. -/
def setCorpus (c : Client) (corpus : List Method) : Client :=
  { c with session := c.session.setCorpus corpus }

/-- Replaces the settings of the session. -/
def setSettings (c : Client) (settings : Settings) : Client :=
  { c with session := c.session.setSettings settings }

/-- Lets go of the held snapshot and takes the current one. -/
def hold (c : Client) : Client := { c with held := c.session.current }

/-- Whether the held snapshot is still the current one. -/
def heldIsCurrent (c : Client) : Bool := c.held.version == c.session.current.version

/-- Starts a search on the current snapshot. -/
def spawn (c : Client) (target : MethodId) (budget : Budget) : Client :=
  { c with pending := c.pending ++ [⟨c.session.current, target, budget⟩] }

/-- Finishes the started searches. -/
def join (c : Client) (clock : Clock) : List (Except SearchError Outcome) × Client :=
  (c.pending.map (·.outcome clock), { c with pending := [] })

end Client

end MethodFingerprint
