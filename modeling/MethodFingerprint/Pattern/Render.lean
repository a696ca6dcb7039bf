import MethodFingerprint.Pattern
import MethodFingerprint.Pattern.Literal

/-!
# Writing patterns

A pattern is written from a list of features, which may come in any order and from anywhere. The
features are **gathered** one after the other: the first return type, the first mask, the first type
of each position and every string once. What disagrees with an earlier feature is reported and left
out, and so is every malformed token; neither stops the writing.

A resolver compares parameter lists by their length. Where the number of parameters is known the
section is therefore filled up to it, so that it still fits the method it was made for.
-/

namespace MethodFingerprint

namespace Pattern

/-- What has been gathered from the features so far. -/
structure Gathering where
  returnType : Option String := none
  accessFlags : Option UInt32 := none
  /-- The positions with their types, latest first. -/
  parameters : List (Nat × String) := []
  /-- Distinct strings, latest first. -/
  strings : List String := []
  /-- The malformed tokens, latest first. -/
  skipped : List Malformed := []
  /-- What there is to report, latest first. -/
  notices : List String := []

namespace Gathering

/-- Reports that a feature disagrees with what was gathered before. -/
def report (g : Gathering) (conflict : Bool) (notice : String) : Gathering :=
  if conflict then { g with notices := notice :: g.notices } else g

/-- Takes up one well-formed feature. -/
def takeReading (g : Gathering) : Reading → Gathering
  | .returnType descriptor =>
    match g.returnType with
    | none => { g with returnType := some descriptor }
    | some kept => g.report (kept != descriptor)
        ("Conflicting return types '" ++ kept ++ "' and '" ++ descriptor ++ "'; keeping the first")
  | .accessFlags mask =>
    match g.accessFlags with
    | none => { g with accessFlags := some mask }
    | some kept => g.report (kept != mask)
        ("Conflicting access flags " ++ toString kept.toNat ++ " and " ++ toString mask.toNat ++
          "; keeping the first")
  | .parameter index descriptor =>
    match g.parameters.lookup index with
    | none => { g with parameters := (index, descriptor) :: g.parameters }
    | some kept => g.report (kept != descriptor)
        ("Conflicting types for parameter " ++ toString index ++ "; keeping '" ++ kept ++ "'")
  | .string literal =>
    if g.strings.contains literal then g else { g with strings := literal :: g.strings }

/-- Takes up one feature, or sets it aside as malformed. -/
def take (g : Gathering) (f : Feature) : Gathering :=
  match f.read with
  | .ok reading => g.takeReading reading
  | .error m => { g with
      skipped := m :: g.skipped
      notices := ("Skipping malformed feature: " ++ m.message) :: g.notices }

/-- What a list of features comes to. -/
def ofFeatures (features : List Feature) : Gathering :=
  features.foldl take {}

end Gathering

/-! ### The sections -/

/-- Arguments as they stand between the parentheses. -/
def argumentList (arguments : List (List Char)) : List Char :=
  [',', ' '].intercalate arguments

/-- A section with its arguments. -/
def sectionText (s : Section) (arguments : List (List Char)) : List Char :=
  s.name.toList ++ '(' :: argumentList arguments ++ [')']

/-- The flags of a mask as arguments. Bits without a flag are left out. -/
def flagArguments (mask : UInt32) : List (List Char) :=
  (AccessFlag.decode mask).map fun flag ↦ flagQualifier ++ flag.name.toList

/-- How many positions are written: enough for every type, and as many as the method is known to
have, but at most `maxParameters`. Without any type, nothing is written. -/
def arity (parameterCount : Option Nat) (parameters : List (Nat × String)) : Nat :=
  min (parameters.foldr (fun p n ↦ max (p.1 + 1) n) (parameterCount.getD 0)) maxParameters

/-- The types by position as arguments. -/
def parameterArguments (parameterCount : Option Nat) (parameters : List (Nat × String)) :
    List (List Char) :=
  (List.range (arity parameterCount parameters)).map fun index ↦
    Literal.quote ((parameters.lookup index).getD "").toList

/-- The sections that have something to say. -/
def sections (parameterCount : Option Nat) (g : Gathering) : List (List Char) :=
  (g.returnType.toList.map fun d ↦ sectionText .returns [Literal.quote d.toList]) ++
    (g.accessFlags.toList.map fun mask ↦ sectionText .accessFlags (flagArguments mask)) ++
    (if g.parameters.isEmpty then []
      else [sectionText .parameters (parameterArguments parameterCount g.parameters)]) ++
    (if g.strings.isEmpty then []
      else [sectionText .strings (g.strings.reverse.map fun s ↦ Literal.quote s.toList)])

/-- Sections as a pattern, one to a line. -/
def textOfSections (sections : List (List Char)) : List Char :=
  header ++ [' ', '{', '\n'] ++ sections.flatMap (fun s ↦ '\t' :: s ++ ['\n']) ++ ['}']

/-! ### The whole pattern -/

/-- A written pattern, and what could not be written. -/
structure Rendered where
  text : String
  /-- The malformed tokens, in the order in which they were given. -/
  skipped : List Malformed
  /-- The bits of the mask that no flag accounts for. -/
  omittedAccessFlags : UInt32
  notices : List String

/-- The notice of bits that no flag accounts for. -/
def omittedNotice (bits : UInt32) : String :=
  "Access flag bits 0x" ++ String.ofList (Nat.toDigits 16 bits.toNat) ++
    " have no method flag name and are omitted"

/-- **Writes features as a pattern.** -/
def render (parameterCount : Option Nat) (features : List Feature) : Rendered :=
  let g := Gathering.ofFeatures features
  let omitted := (g.accessFlags.map AccessFlag.unknownBits).getD 0
  { text := String.ofList (textOfSections (sections parameterCount g))
    skipped := g.skipped.reverse
    omittedAccessFlags := omitted
    notices := g.notices.reverse ++ if omitted = 0 then [] else [omittedNotice omitted] }

end Pattern

end MethodFingerprint
