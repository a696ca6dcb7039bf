import MethodFingerprint.CommandLine.Run
import MethodFingerprint.Database.Memory

/-!
# A directory in memory

A `Directory` is the part of the world that commands see: files and databases, each known by the
components of its path. Commands that run in it read and change it and nothing else. No time passes
in it, so a limit on the duration has either passed from the start or never passes.
-/

namespace MethodFingerprint.CommandLine

/-- What a file holds. -/
inductive Entry where
  | bytes (contents : ByteArray)
  | database (m : Database.Memory)

/-- What is read of a file. Of a database this is no more than what shows that it is one. -/
def Entry.contents : Entry → ByteArray
  | bytes contents => contents
  | database _ => "SQLite format 3\x00".toUTF8

/-- The files of a directory and of the directories in it. -/
structure Directory where
  files : List (List String × Entry) := []

namespace Directory

/-- A directory with files at the given paths. -/
def ofFiles (files : List (String × ByteArray)) : Directory :=
  ⟨files.map fun f ↦ (Path.components f.1, .bytes f.2)⟩

/-- Whether there is a directory at a place: some file lies in it. The place of the directory itself
has no components. -/
def isDirectory (d : Directory) (place : List String) : Bool :=
  place.isEmpty || d.files.any fun f ↦ place != f.1 && place.isPrefixOf f.1

/-- Whether a path can name nothing but a directory. -/
def namesDirectory (path : String) : Bool := path.endsWith "/" || path.endsWith "/."

/-- Whether a path starts outside of the directory. -/
def isAbsolute (path : String) : Bool := path.startsWith "/"

/-- The file at a path. -/
def entry (d : Directory) (path : String) : Except Document.ReadFailure Entry :=
  let place := Path.components path
  if isAbsolute path then .error (if place.isEmpty then .isDirectory else .notFound)
  else if d.isDirectory place then .error .isDirectory
  else match d.files.lookup place with
    | some e => if namesDirectory path then .error .notDirectory else .ok e
    | none =>
      if d.files.any fun f ↦ f.1.isPrefixOf place then .error .notDirectory else .error .notFound

/-- Whether there can be a file at a path. -/
def takes (d : Directory) (path : String) : Bool :=
  let place := Path.components path
  !isAbsolute path && !namesDirectory path && !d.isDirectory place && d.isDirectory place.dropLast

/-- Replaces the file at a path. -/
def put (d : Directory) (path : String) (e : Entry) : Directory :=
  let place := Path.components path
  ⟨(place, e) :: d.files.filter (·.1 != place)⟩

/-- The database at a path, a new one if there is no file yet. -/
def database (d : Directory) (path : String) : Except Database.SqlError Database.Memory :=
  if path == Database.Memory.unkeptPath then .ok {}
  else match d.entry path with
    | .ok (.database m) => .ok m
    | .ok (.bytes contents) =>
      if contents.isEmpty then .ok {} else .error ⟨"file is not a database"⟩
    | .error _ => if d.takes path then .ok {} else .error ⟨"unable to open database file"⟩

/-- What commands see of a directory. `stamp` is the time there. -/
def surroundings (stamp : String) : Surroundings (StateM Directory) Database.Memory where
  read path := return ((← get).entry path).map Entry.contents
  backend := .ofEngine Database.Memory.engine
  attach path := return (← get).database path
  detach path m := do
    if path != Database.Memory.unkeptPath then
      modify (·.put path (.database m))
    return .ok ()
  now := return stamp
  find snapshot strategy budget target := return (snapshot.find strategy budget .still target, 0)
  notify _ := return ()

/-- **Runs the program in a directory**: its answer and what becomes of the directory. -/
def run (d : Directory) (stamp : String) (words : List String) : Answer × Directory :=
  (CommandLine.run (surroundings stamp) words).run d

end Directory

end MethodFingerprint.CommandLine
