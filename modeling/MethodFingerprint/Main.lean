import MethodFingerprint.CommandLine.Run
import MethodFingerprint.Database.Memory.File
import Std.Time.Format

/-!
# The program

The command line in the world: files, databases that are kept in files, the clock, and the standard
streams.
-/

namespace MethodFingerprint.CommandLine

/-- Why the system could not read a file. -/
def failureOfError (e : IO.Error) : Document.ReadFailure :=
  match e with
  | .noFileOrDirectory _ _ _ => .notFound
  | .inappropriateType _ code _ => if code = 21 then .isDirectory else .notDirectory
  | e => .other (toString e)

/-- The contents of a file. -/
def readFile (path : String) : IO Document.Contents := do
  try
    return .ok (← IO.FS.readBinFile path)
  catch e =>
    return .error (failureOfError e)

/-- Replaces the contents of a file, if that is possible. -/
def writeFile (path : String) (bytes : ByteArray) : IO Bool := do
  try
    IO.FS.writeBinFile path bytes
    return true
  catch _ =>
    return false

/-- The database in a file. One that is not there yet is created. -/
def attach (path : String) : IO (Except Database.SqlError Database.Memory) := do
  if path == Database.Memory.unkeptPath then return .ok {}
  match ← readFile path with
  | .ok bytes =>
    match Database.Memory.ofBytes? bytes with
    | some m => return .ok m
    | none => return .error ⟨"file is not a database"⟩
  | .error .notFound =>
    if ← writeFile path .empty then return .ok {}
    return .error ⟨"unable to open database file"⟩
  | .error _ => return .error ⟨"unable to open database file"⟩

/-- Keeps a database in a file. -/
def detach (path : String) (m : Database.Memory) : IO (Except Database.SqlError Unit) := do
  if path == Database.Memory.unkeptPath then return .ok ()
  if ← writeFile path m.bytes then return .ok ()
  return .error ⟨"disk I/O error"⟩

/-- The time in UTC. -/
def utcNow : IO String := do
  return (Std.Time.DateTime.ofTimestamp (← Std.Time.Timestamp.now) .UTC).toISO8601String

/-- Walks on, with a look at the clock whenever the budget asks for one. `start` is when the walk
began, in milliseconds. -/
def walk (budget : Budget) (start : Nat) (slot : Slot) (w : Walk) : IO (Walk × Bool) := do
  let elapsed := (← IO.monoMsNow) - start
  if w.isExtending && budget.isExhausted (fun limit _ ↦ limit ≤ elapsed) w.branches then
    return (w, false)
  match _h : w.step slot with
  | none => return (w, true)
  | some w' => walk budget start slot w'
termination_by w.weight
decreasing_by exact Walk.weight_step_lt _h

/-- Searches while watching the clock. -/
def searchTimed (x : Index) (budget : Budget) (target : MethodId) :
    IO (Except SearchError Outcome) := do
  match Target.ofIndex x target with
  | .error e => return .error e
  | .ok t =>
    let (w, complete) ← walk budget (← IO.monoMsNow) t.slot (Walk.start t)
    return w.conclude target complete

/-- Looks for fingerprints and measures how long that takes. -/
def findTimed (snapshot : Snapshot) (strategy : Strategy) (budget : Budget) (target : MethodId) :
    IO (Except SearchError Finding × Nat) := do
  let start ← IO.monoNanosNow
  let found ← match strategy with
    | .exhaustive => pure ((← searchTimed snapshot.index budget target).map Finding.ofOutcome)
    | .greedy => pure ((snapshot.solveGreedy target).map Finding.ofGreedy)
  return (found, (← IO.monoNanosNow) - start)

/-- Reports notices unless only errors are reported. -/
def notify (quiet : Bool) (notices : List String) : IO Unit := do
  if !quiet then
    for notice in notices do
      IO.eprintln ("warning: " ++ notice)

/-- The world. -/
def world (quiet : Bool) : Surroundings IO Database.Memory where
  read := readFile
  backend := .ofEngine Database.Memory.engine
  attach := attach
  detach := detach
  now := utcNow
  find := findTimed
  notify := notify quiet

end MethodFingerprint.CommandLine

open MethodFingerprint.CommandLine in
/-- The program. -/
def main (words : List String) : IO UInt32 := do
  let quiet := match Request.ofWords words with
    | .ok request => request.quiet
    | .error _ => false
  let answer ← run (world quiet) words
  IO.print answer.output
  IO.eprint answer.error
  return answer.exitCode.toUInt32
