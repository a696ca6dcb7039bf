import MethodFingerprint.Text.Blank
import MethodFingerprint.Text.Decimal

/-!
# Features

A **feature** is a token `<category>|<value>`, kept as the text it is: features are compared,
ordered and stored as texts, and a text that is no well-formed token is still a feature. What a
token says is only worked out by `Feature.read`, which answers with a typed **reading** or with the
reason why the token is malformed.

The category ends at the first bar, so values may hold any character, bars included. Only two kinds
of value are restricted: a mask of access flags is a number below `2 ^ 32`, which may carry a plus
sign and leading zeros, and the position of a parameter, which is part of the category, is written
plainly and is at most 254, as a method has no more than 255 parameter registers.
-/

namespace MethodFingerprint

open Text

/-- One raw token. -/
structure Feature where
  token : String
  deriving DecidableEq, Hashable, Repr, Inhabited

/-- Features are ordered as texts, character by character. -/
instance : LT Feature := ⟨fun a b ↦ a.token < b.token⟩

instance (a b : Feature) : Decidable (a < b) :=
  inferInstanceAs (Decidable (a.token < b.token))

/-- What a feature is about. -/
inductive Category where
  | returnType
  /-- The parameter at a position, counted from 0. -/
  | parameter (index : Nat)
  | strings
  | accessFlags
  deriving DecidableEq, Repr

namespace Category

/-- The text of a category, as it stands before the bar. -/
def text : Category → String
  | returnType => "returnType"
  | parameter index => "parameter_" ++ String.ofList (numeral index)
  | strings => "strings"
  | accessFlags => "accessFlags"

end Category

/-- What a well-formed token says. -/
inductive Reading where
  | returnType (descriptor : String)
  | parameter (index : Nat) (descriptor : String)
  | string (literal : String)
  | accessFlags (mask : UInt32)
  deriving DecidableEq, Repr

namespace Reading

/-- The category a reading belongs to. -/
def category : Reading → Category
  | returnType _ => .returnType
  | parameter index _ => .parameter index
  | string _ => .strings
  | accessFlags _ => .accessFlags

end Reading

/-- Why a token has no reading. -/
inductive Malformation where
  | missingSeparator
  | unknownCategory (category : String)
  | invalidParameterIndex
  | invalidAccessFlags
  deriving DecidableEq, Repr

/-- A token without a reading, and the reason. -/
structure Malformed where
  token : String
  reason : Malformation
  deriving DecidableEq, Repr

namespace Malformed

/-- How a malformed token is reported. -/
def message (m : Malformed) : String :=
  "Feature token '" ++ m.token ++ "' " ++ match m.reason with
    | .missingSeparator => "has no category separator"
    | .unknownCategory category => "has unknown category '" ++ category ++ "'"
    | .invalidParameterIndex => "has an invalid parameter index"
    | .invalidAccessFlags => "carries a non-numeric access flag mask"

end Malformed

namespace Feature

/-- The highest position a parameter feature may name. -/
def maxParameterIndex : Nat := 254

/-- The token of a category and a value. -/
def ofCategory (category : Category) (value : String) : Feature :=
  ⟨category.text ++ "|" ++ value⟩

/-- The feature of a return type. -/
def returnType (descriptor : String) : Feature :=
  ofCategory .returnType descriptor

/-- The feature of a parameter at a position. -/
def parameter (index : Nat) (descriptor : String) : Feature :=
  ofCategory (.parameter index) descriptor

/-- The feature of a string constant. -/
def string (literal : String) : Feature :=
  ofCategory .strings literal

/-- The feature of a mask of access flags. -/
def accessFlags (mask : UInt32) : Feature :=
  ofCategory .accessFlags (String.ofList (numeral mask.toNat))

/-- The token that says what a reading says. -/
def ofReading : Reading → Feature
  | .returnType descriptor => returnType descriptor
  | .parameter index descriptor => parameter index descriptor
  | .string literal => string literal
  | .accessFlags mask => accessFlags mask

/-- The mask a value of the category `accessFlags` spells. -/
def readMask? (value : List Char) : Option UInt32 :=
  (signedDigits? UInt32.size value).map UInt32.ofNat

/-- The position that follows `parameter_`. -/
def readIndex? (digits : List Char) : Option Nat :=
  (plainDigits? digits).filter (· ≤ maxParameterIndex)

/-- **Works out what a token says**, cutting it at its first bar. -/
def read (f : Feature) : Except Malformed Reading :=
  match splitFirst? '|' f.token.toList with
  | none => .error ⟨f.token, .missingSeparator⟩
  | some (category, value) =>
    if category = "returnType".toList then .ok (.returnType (String.ofList value))
    else if category = "strings".toList then .ok (.string (String.ofList value))
    else if category = "accessFlags".toList then
      match readMask? value with
      | some mask => .ok (.accessFlags mask)
      | none => .error ⟨f.token, .invalidAccessFlags⟩
    else match afterHead? "parameter_".toList category with
      | some digits =>
        match readIndex? digits with
        | some index => .ok (.parameter index (String.ofList value))
        | none => .error ⟨f.token, .invalidParameterIndex⟩
      | none => .error ⟨f.token, .unknownCategory (String.ofList category)⟩

/-- Whether a token is well formed. -/
def isWellFormed (f : Feature) : Bool :=
  f.read.toBool

end Feature

end MethodFingerprint
