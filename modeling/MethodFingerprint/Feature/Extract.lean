import MethodFingerprint.Feature.Set
import MethodFingerprint.Method

/-!
# The features of a method

`Settings` say which categories take part, and `Settings.features` draws the features of one method.
Nothing is drawn from an empty descriptor, so a record that leaves out a type is described by what
it does give; the other parameters keep their positions. Positions past 254 have no token and are
left out.
-/

namespace MethodFingerprint

/-- Which categories take part. -/
structure Settings where
  useReturnType : Bool := true
  useParameters : Bool := true
  useStrings : Bool := true
  useAccessFlags : Bool := true
  /-- Reserved: no feature is drawn from opcodes yet, whatever this says. -/
  useOpcodes : Bool := false
  deriving DecidableEq, Repr, Inhabited

namespace Settings

/-- Whether no category that yields features takes part. -/
def isEmpty (s : Settings) : Bool :=
  !(s.useReturnType || s.useParameters || s.useStrings || s.useAccessFlags)

/-- The feature of the return type, if one is given. -/
def returnTypeFeatures (m : Method) : List Feature :=
  if m.returnType = "" then [] else [.returnType m.returnType]

/-- The features of the parameters whose type is given, by position. -/
def parameterFeatures (m : Method) : List Feature :=
  ((m.parameters.take (Feature.maxParameterIndex + 1)).zipIdx.filter (·.1 ≠ "")).map
    fun p ↦ .parameter p.2 p.1

/-- The features of the string constants. -/
def stringFeatures (m : Method) : List Feature :=
  m.strings.map .string

/-- The feature of the access flags: their whole mask. -/
def accessFlagFeatures (m : Method) : List Feature :=
  [.accessFlags m.accessFlags]

/-- **The features of a method** in the categories that take part. -/
def features (s : Settings) (m : Method) : FeatureSet :=
  .ofList ((if s.useReturnType then returnTypeFeatures m else []) ++
    (if s.useParameters then parameterFeatures m else []) ++
    (if s.useStrings then stringFeatures m else []) ++
    (if s.useAccessFlags then accessFlagFeatures m else []))

end Settings

end MethodFingerprint
