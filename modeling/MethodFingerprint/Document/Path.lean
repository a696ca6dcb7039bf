/-!
# Paths

A path is a text in which slashes separate components. Empty components and single dots mean nothing
and are passed over, so `a/b`, `a//b/.` and `./a/b` name the same place.
-/

namespace MethodFingerprint.Path

/-- The components of a path, without those that mean nothing. -/
def components (path : String) : List String :=
  (path.splitOn "/").filter fun c ↦ c != "" && c != "."

/-- The name of the file at a path. A path that leads upwards in the end names no file. -/
def fileName? (path : String) : Option String :=
  (components path).getLast?.filter (· != "..")

/-- What follows the last dot of a name, if anything stands before that dot. -/
def afterLastDot? (name : List Char) : Option (List Char) :=
  let after := (name.reverse.takeWhile (· != '.')).reverse
  if name.length ≤ after.length + 1 then none else some after

/-- The extension of the file at a path. -/
def extension? (path : String) : Option String :=
  (fileName? path).bind fun name ↦ (afterLastDot? name.toList).map String.ofList

end MethodFingerprint.Path
