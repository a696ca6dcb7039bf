import MethodFingerprint.Session

/-!
# The course of a session

A `Course` is a session together with what it has handed out. **Events** happen to it one after the
other: the corpus or the settings are replaced, the session is asked something, a user takes the
current snapshot or starts a search on it. What an event hands out is kept under the number of the
event, so that any later event may put a question to the snapshot that was taken then, or be the end
of the search that was started then, whatever has happened in between.
-/

namespace MethodFingerprint

/-! ### Questions -/

/-- What can be asked of a snapshot. -/
inductive Question where
  | features (target : MethodId)
  /-- All features of a method as a pattern. -/
  | full (target : MethodId)
  /-- A fingerprint of a method as a pattern. -/
  | render (target : MethodId) (fingerprint : Fingerprint)
  | solve (target : MethodId) (budget : Budget) (clock : Clock)
  | greedy (target : MethodId)

/-- What is answered. -/
inductive Reply where
  | features (answer : Except UnknownMethod FeatureSet)
  | pattern (answer : Except UnknownMethod Pattern.Rendered)
  | outcome (answer : Except SearchError Outcome)
  | fingerprint (answer : Except SearchError Fingerprint)

/-- Answers a question. -/
def Snapshot.reply (s : Snapshot) : Question → Reply
  | .features target => .features (s.features target)
  | .full target => .pattern (s.renderFull target)
  | .render target fingerprint => .pattern (s.render target fingerprint)
  | .solve target budget clock => .outcome (s.solve budget clock target)
  | .greedy target => .fingerprint (s.solveGreedy target)

/-! ### Events -/

/-- What may happen to a session. Numbers are those of earlier events, counted from 0. -/
inductive Event where
  | setCorpus (corpus : List Method)
  | setSettings (settings : Settings)
  /-- A user takes the current snapshot. -/
  | hold
  /-- A user starts a search on the current snapshot. -/
  | spawn (target : MethodId) (budget : Budget)
  /-- The session is asked something. -/
  | ask (question : Question)
  /-- The snapshot that was taken by an earlier event is asked something. -/
  | askHeld (number : Nat) (question : Question)
  /-- The search that was started by an earlier event comes to its end. -/
  | finish (number : Nat) (clock : Clock)

namespace Event

/-- The corpus an event brings in. -/
def corpus? : Event → Option (List Method)
  | setCorpus corpus => some corpus
  | _ => none

/-- The settings an event brings in. -/
def settings? : Event → Option Settings
  | setSettings settings => some settings
  | _ => none

end Event

/-- What an event hands out. -/
inductive Receipt where
  | nothing
  | snapshot (held : Snapshot)
  | search (started : PendingSearch)

/-! ### Courses -/

/-- A session with what it has handed out. -/
structure Course where
  session : Session
  /-- One receipt for every event so far, the first event first. -/
  receipts : List Receipt

namespace Course

/-- A session at its start. -/
def start (corpus : List Method) (settings : Settings) : Course :=
  ⟨.start corpus settings, []⟩

/-- What an event hands out. -/
def receipt (c : Course) : Event → Receipt
  | .hold => .snapshot c.session.current
  | .spawn target budget => .search ⟨c.session.current, target, budget⟩
  | _ => .nothing

/-- What an event is answered, if it is a question or the end of a search. -/
def reply? (c : Course) : Event → Option Reply
  | .ask question => some (c.session.current.reply question)
  | .askHeld number question =>
    match c.receipts[number]? with
    | some (.snapshot held) => some (held.reply question)
    | _ => none
  | .finish number clock =>
    match c.receipts[number]? with
    | some (.search started) => some (.outcome (started.outcome clock))
    | _ => none
  | _ => none

/-- The session after an event. -/
def sessionAfter (c : Course) : Event → Session
  | .setCorpus corpus => c.session.setCorpus corpus
  | .setSettings settings => c.session.setSettings settings
  | _ => c.session

/-- The course after one more event. -/
def next (c : Course) (e : Event) : Course :=
  ⟨c.sessionAfter e, c.receipts ++ [c.receipt e]⟩

/-- **The course of a session** through some events. -/
def after (corpus : List Method) (settings : Settings) (events : List Event) : Course :=
  events.foldl next (start corpus settings)

end Course

end MethodFingerprint
