import MethodFingerprint.AccessFlag
import MethodFingerprint.Feature

/-!
# Patterns

A **pattern** is what a resolver in another build of the corpus looks for: a return type, access
flags, parameter types by position and string constants, each as far as it is known. It is written

```text
fingerprint {
	returns("V")
	accessFlags(AccessFlags.PUBLIC, AccessFlags.FINAL)
	parameters("I", "", "Ljava/lang/String;")
	strings("loading", "done")
}
```

where a section that says nothing is left out. A parameter that is not constrained is written `""`.
-/

namespace MethodFingerprint

/-- What a pattern asks of a method. -/
structure Pattern where
  returnType : Option String
  accessFlags : Option UInt32
  /-- Types by position; `none` is a position that may hold any type. -/
  parameters : Option (List (Option String))
  strings : List String
  deriving DecidableEq, Repr

namespace Pattern

/-- The most positions a pattern may have. -/
def maxParameters : Nat := Feature.maxParameterIndex + 1

/-- The features of the constrained positions. -/
def parameterFeatures (slots : List (Option String)) : List Feature :=
  slots.zipIdx.filterMap fun p ↦ p.1.map (Feature.parameter p.2)

/-- **The features a pattern asks for**, in token order. A string asked for twice is there twice. -/
def features (p : Pattern) : List Feature :=
  (p.returnType.toList.map Feature.returnType ++ p.accessFlags.toList.map Feature.accessFlags ++
    (p.parameters.map parameterFeatures).getD [] ++ p.strings.map Feature.string).mergeSort
      fun f g ↦ !decide (g < f)

/-! ### Words of the notation -/

/-- The word a pattern starts with. -/
def header : List Char := "fingerprint".toList

/-- What may stand before the name of a flag. -/
def flagQualifier : List Char := "AccessFlags.".toList

/-- The sections, in the order in which they are written. -/
inductive Section where
  | returns | accessFlags | parameters | strings
  deriving DecidableEq, Repr

namespace Section

/-- The name of a section. -/
def name : Section → String
  | returns => "returns"
  | accessFlags => "accessFlags"
  | parameters => "parameters"
  | strings => "strings"

/-- The section of a name. -/
def ofName? (name : List Char) : Option Section :=
  [returns, accessFlags, parameters, strings].find? fun s ↦ s.name.toList == name

end Section

end Pattern

end MethodFingerprint
