import MethodFingerprint.History.Backend

/-!
# The course of a history

What happens to a history over time, in two views.

A single user carries out **calls** on a database: runs are added, and in between it is closed and
opened again. The first call that fails is the last one.

A **shared history** is opened by several users, while the version of its database is changed from
outside. Here nothing stops at a failure: whoever is refused has nothing open, and the others go on.
-/

namespace MethodFingerprint.History

open Database

/-! ### Calls -/

/-- What a user does with an open history. -/
inductive Call where
  | insert (run : Run)
  | reopen

/-- The run that a call adds. -/
def Call.run? : Call → Option Run
  | insert r => some r
  | reopen => none

namespace Backend

variable {Db : Type} (b : Backend Db)

/-- Closes the database and opens it again. -/
def reopen : Action Db Unit := fun d ↦ b.openHistory (b.engine.rollback d)

/-- Carries out a call; answers with the key of the run that it adds. -/
def call : Call → Action Db (Option Int)
  | .insert r => return some (← b.insert r)
  | .reopen => do
    b.reopen
    return none

/-- **Carries out calls** up to the first that fails; answers with the keys of the runs that they
add. -/
def perform : List Call → Action Db (List Int)
  | [] => return []
  | call :: calls => do
    let id ← b.call call
    let ids ← perform calls
    return id.toList ++ ids

end Backend

/-! ### Shared histories -/

/-- A history that users share, who are known by numbers. -/
structure SharedHistory (Db : Type) where
  db : Db
  /-- Whether a user has the history open. -/
  hasOpen : Nat → Bool := fun _ ↦ false
  /-- The runs that were added, with the keys that were answered, in order. -/
  added : List (Int × Run) := []

namespace SharedHistory

/-- What may happen to a shared history. -/
inductive Event where
  | openHistory (user : Nat)
  | insert (user : Nat) (run : Run)
  /-- The version is changed from outside. -/
  | setVersion (version : Int32)

variable {Db : Type} (b : Backend Db)

/-- What an event makes of a shared history. -/
def next (s : SharedHistory Db) : Event → SharedHistory Db
  | .openHistory user =>
    let (answer, db) := b.openHistory s.db
    { s with db, hasOpen := fun u ↦ if u = user then answer.isOk else s.hasOpen u }
  | .insert user r =>
    if s.hasOpen user then
      match b.insert r s.db with
      | (.ok id, db) => { s with db, added := s.added ++ [(id, r)] }
      | (.error _, db) => { s with db }
    else s
  | .setVersion version => { s with db := (b.execute (.edit (.setVersion version)) s.db).2 }

/-- A shared history after some events. -/
def after (s : SharedHistory Db) (events : List Event) : SharedHistory Db :=
  events.foldl (next b) s

end SharedHistory

end MethodFingerprint.History
