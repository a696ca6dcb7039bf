import MethodFingerprint.Document.Datum
import MethodFingerprint.Document.Yaml.Scalar
import MethodFingerprint.Document.Yaml.Tag

/-!
# What YAML scalars may be read as

Every scalar is a text. A plain one may be a truth value, a number or nothing as well, if it is
spelled like one; a quoted or folded one never is. A literal one is if its tag says so.

Numbers are decimal without leading zeros, or in base 16, 8 or 2 behind `0x`, `0o` or `0b`, and a
plus sign may precede them.

A plain scalar that is tagged as nothing must be spelled as nothing; one with another tag is never
nothing.
-/

namespace MethodFingerprint.Yaml

/-- The truth value with a spelling. -/
def flag? (s : String) : Option Bool :=
  if ["true", "True", "TRUE"].contains s then some true
  else if ["false", "False", "FALSE"].contains s then some false
  else none

/-- Whether a spelling stands for nothing. -/
def isNullWord (s : String) : Bool := ["null", "Null", "NULL", "~"].contains s

/-- A number behind its sign. -/
def unsigned? : List Char → Option Nat
  | '0' :: 'x' :: rest => Text.digitsInBase? 16 rest
  | '0' :: 'o' :: rest => Text.digitsInBase? 8 rest
  | '0' :: 'b' :: rest => Text.digitsInBase? 2 rest
  | s => Text.plainDigits? s

/-- A number, which a plus sign may precede. -/
def natural? : List Char → Option Nat
  | '+' :: rest => unsigned? rest
  | s => unsigned? s

/-- Whether a scalar may be more than a text: a plain one, and a literal one with the given tag. -/
def isTyped (name : String) (tag : Option Tag) : Style → Bool
  | .plain => true
  | .literal => tag == some (.standard name)
  | _ => false

/-- Whether a scalar stands for a value where a value may also be left out. -/
def presence (tag : Option Tag) (style : Style) (text : String) : Presence :=
  match style, tag with
  | .plain, none => if text.isEmpty || isNullWord text then .missing else .given
  | .plain, some tag =>
    if tag != .standard "null" then .given
    else if isNullWord text then .missing
    else .contradictory
  | _, _ => .given

/-- **What a scalar may be read as.** -/
def scalar (tag : Option Tag) (style : Style) (text : String) : Scalar where
  text := some text
  flag := if isTyped "bool" tag style then flag? text else none
  natural := if isTyped "int" tag style then natural? text.toList else none
  presence := presence tag style text
  isBlank := style == .plain && text.isEmpty

/-- A value that has been left out. -/
def absent (tag : Option Tag) : Datum := .scalar (scalar tag .plain "")

/-- A document without a value. -/
def void : Datum := .scalar { presence := .missing, isBlank := true }

end MethodFingerprint.Yaml
