/-!
# Access flags

The modifiers a method may carry, each one bit of a 32-bit mask. The mask is shared with classes and
fields, whose own flags use some of the bits left free here; those bits are **unknown** to a method
and never decode.
-/

namespace MethodFingerprint

/-- A modifier of a method. -/
inductive AccessFlag where
  | isPublic | isPrivate | isProtected | isStatic | isFinal | isSynchronized | isBridge | isVarargs
  | isNative | isAbstract | isStrictfp | isSynthetic | isConstructor | isDeclaredSynchronized
  deriving DecidableEq, Repr

namespace AccessFlag

/-- Every flag, in **canonical order**: by rising bit. -/
def all : List AccessFlag :=
  [isPublic, isPrivate, isProtected, isStatic, isFinal, isSynchronized, isBridge, isVarargs,
    isNative, isAbstract, isStrictfp, isSynthetic, isConstructor, isDeclaredSynchronized]

/-- The one bit of a flag. -/
def bit : AccessFlag → UInt32
  | isPublic => 0x1
  | isPrivate => 0x2
  | isProtected => 0x4
  | isStatic => 0x8
  | isFinal => 0x10
  | isSynchronized => 0x20
  | isBridge => 0x40
  | isVarargs => 0x80
  | isNative => 0x100
  | isAbstract => 0x400
  | isStrictfp => 0x800
  | isSynthetic => 0x1000
  | isConstructor => 0x10000
  | isDeclaredSynchronized => 0x20000

/-- The name a flag is written with. -/
def name : AccessFlag → String
  | isPublic => "PUBLIC"
  | isPrivate => "PRIVATE"
  | isProtected => "PROTECTED"
  | isStatic => "STATIC"
  | isFinal => "FINAL"
  | isSynchronized => "SYNCHRONIZED"
  | isBridge => "BRIDGE"
  | isVarargs => "VARARGS"
  | isNative => "NATIVE"
  | isAbstract => "ABSTRACT"
  | isStrictfp => "STRICTFP"
  | isSynthetic => "SYNTHETIC"
  | isConstructor => "CONSTRUCTOR"
  | isDeclaredSynchronized => "DECLARED_SYNCHRONIZED"

/-- The flag of a name, letter case included. -/
def ofName? (name : String) : Option AccessFlag :=
  all.find? (·.name == name)

/-- The mask of a list of flags, whose order and repetitions do not count. -/
def encode (flags : List AccessFlag) : UInt32 :=
  flags.foldl (fun mask flag ↦ mask ||| flag.bit) 0

/-- The flags of a mask, in canonical order. -/
def decode (mask : UInt32) : List AccessFlag :=
  all.filter fun flag ↦ mask &&& flag.bit != 0

/-- The bits of a mask that no flag accounts for. -/
def unknownBits (mask : UInt32) : UInt32 :=
  mask &&& ~~~all.foldl (fun known flag ↦ known ||| flag.bit) 0

/-- Every flag is listed. -/
theorem mem_all (flag : AccessFlag) : flag ∈ all := by
  cases flag <;> decide

/-- **A flag is found under its name.** -/
theorem ofName?_name (flag : AccessFlag) : ofName? flag.name = some flag := by
  cases flag <;> decide

/-- A flag is decoded exactly when its bit is set. -/
theorem mem_decode {mask : UInt32} {flag : AccessFlag} :
    flag ∈ decode mask ↔ mask &&& flag.bit ≠ 0 := by
  simp [decode, mem_all]

end AccessFlag

end MethodFingerprint
