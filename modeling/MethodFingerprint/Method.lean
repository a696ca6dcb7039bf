/-!
# Methods and their ids

A **method** is one record of a corpus: its signature, its modifiers and what an external reader of
bytecode found in its body. Records are told apart by their **id**, which is spelled from the
signature alone, so two records may well have the same one; the later of them then stands for the
method.
-/

namespace MethodFingerprint

/-- The id of a method, spelled `<class><name>(<parameters>)<return type>`. -/
structure MethodId where
  text : String
  deriving DecidableEq, Hashable, Repr, Inhabited

/-- Ids are ordered as texts, character by character. -/
instance : LT MethodId := ⟨fun a b ↦ a.text < b.text⟩

instance (a b : MethodId) : Decidable (a < b) :=
  inferInstanceAs (Decidable (a.text < b.text))

instance : ToString MethodId := ⟨MethodId.text⟩

/-- One compiled method. -/
structure Method where
  /-- The type descriptor of the declaring class, such as `Lcom/example/Foo;`. -/
  definingClass : String
  name : String
  accessFlags : UInt32
  returnType : String
  /-- Type descriptors by position. -/
  parameters : List String
  /-- Instructions in body order; no feature is drawn from them yet. -/
  opcodes : List String
  /-- String constants of the body, in order of appearance. -/
  strings : List String
  deriving DecidableEq, Repr

namespace Method

/-- The id of a record. The descriptors of the parameters follow each other without a separator. -/
def id (m : Method) : MethodId :=
  ⟨m.definingClass ++ m.name ++ "(" ++ String.join m.parameters ++ ")" ++ m.returnType⟩

end Method

end MethodFingerprint
