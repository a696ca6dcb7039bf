import MethodFingerprint.Session.Course

/-!
# Sessions with several users

Users may replace the corpus or the settings of a session **at the same time**. A call that does so
is not done at once: it takes the lock, reads the current snapshot, builds the next one from what it
has read, swaps the two and gives the lock back, and between any two of these steps others may move.
A call for settings that are in force already gives the lock back after reading. Whoever only wants
to ask the session something reads the current snapshot in one step and takes no lock.

A `SharedSession` is a session with the calls made so far, each at its `Stage`. A `Move` is what may
happen next: a call is made, a call goes one step further, or someone reads. **An interleaving is a
list of moves**, so what holds after every list of moves holds at every moment, whatever the order
in which the calls are scheduled.
-/

namespace MethodFingerprint

/-! ### Calls -/

/-- What a call replaces. -/
inductive Change where
  | corpus (corpus : List Method)
  | settings (settings : Settings)

namespace Change

/-- The snapshot that is built from the one that was read, which gives the half that is kept. None
is built if the settings are the same. -/
def build? (read : Snapshot) : Change → Option Snapshot
  | corpus new => some (.build (read.version + 1) new read.settings)
  | settings new =>
    if read.settings = new then none
    else some (.build (read.version + 1) read.corpus new)

end Change

/-- How far a call has come. -/
inductive Stage where
  /-- It has been made and has not taken the lock. -/
  | made
  /-- It has taken the lock. -/
  | locked
  /-- It has read the current snapshot. -/
  | reading (read : Snapshot)
  /-- It has built the next snapshot. -/
  | built (next : Snapshot)
  /-- It has made the next snapshot the current one. -/
  | swapped
  /-- It has given the lock back. -/
  | returned

namespace Stage

/-- Whether a call has the lock. -/
def holdsLock : Stage → Bool
  | made | returned => false
  | locked | reading _ | built _ | swapped => true

/-- Whether a call has taken effect: it has swapped, or returned without a swap. -/
def isDone : Stage → Bool
  | swapped | returned => true
  | made | locked | reading _ | built _ => false

end Stage

/-- A call. -/
structure Call where
  change : Change
  stage : Stage := .made

/-- The change of a call that has taken effect. -/
def Call.applied? (c : Call) : Option Change :=
  if c.stage.isDone then some c.change else none

/-! ### Interleavings -/

/-- A session with the calls of its users. -/
structure SharedSession where
  session : Session
  /-- The number of the call that has the lock. -/
  holder : Option Nat
  /-- The calls, in the order in which they were made. -/
  calls : List Call
  /-- The numbers of the calls that have taken the lock, in that order. -/
  order : List Nat
  /-- The snapshots that were read by others, in that order. -/
  reads : List Snapshot

/-- What may happen next. -/
inductive Move where
  /-- Someone makes a call. -/
  | call (change : Change)
  /-- The call with a number goes one step further. -/
  | advance (number : Nat)
  /-- Someone reads the current snapshot. -/
  | read

namespace SharedSession

/-- A session that nobody has used. -/
def start (corpus : List Method) (settings : Settings) : SharedSession :=
  ⟨.start corpus settings, none, [], [], []⟩

/-- Brings a call to a stage. -/
def setStage (s : SharedSession) (number : Nat) (call : Call) (stage : Stage) : SharedSession :=
  { s with calls := s.calls.set number { call with stage } }

/-- The next step of a call. There is none if another call has the lock that it needs, or if it has
returned. -/
def advance? (s : SharedSession) (number : Nat) (call : Call) : Option SharedSession :=
  match call.stage with
  | .made =>
    match s.holder with
    | some _ => none
    | none =>
      some { s.setStage number call .locked with
        holder := some number, order := s.order ++ [number] }
  | .locked => some (s.setStage number call (.reading s.session.current))
  | .reading read =>
    match call.change.build? read with
    | none => some { s.setStage number call .returned with holder := none }
    | some next => some (s.setStage number call (.built next))
  | .built next => some { s.setStage number call .swapped with session := ⟨next⟩ }
  | .swapped => some { s.setStage number call .returned with holder := none }
  | .returned => none

/-- The next state, if the move is possible. -/
def next? (s : SharedSession) : Move → Option SharedSession
  | .call change => some { s with calls := s.calls ++ [⟨change, .made⟩] }
  | .advance number => s.calls[number]?.bind (s.advance? number)
  | .read => some { s with reads := s.reads ++ [s.session.current] }

/-- **The state after an interleaving**, if all its moves are possible. -/
def run? (s : SharedSession) (moves : List Move) : Option SharedSession :=
  moves.foldlM next? s

/-- The change of the call with a number, if the call has taken effect. -/
def effect? (s : SharedSession) (number : Nat) : Option Change :=
  s.calls[number]?.bind Call.applied?

/-- The changes of the calls that have taken effect, in the order in which the calls have taken the
lock. -/
def applied (s : SharedSession) : List Change := s.order.filterMap s.effect?

end SharedSession

namespace Session

/-- The session after a change made without interruption. -/
def change (s : Session) : Change → Session
  | .corpus new => s.setCorpus new
  | .settings new => s.setSettings new

end Session

end MethodFingerprint
