/-!
# Decimal numerals

Numbers reach the library as text in three places: in a feature token, where a mask may carry a
plus sign and leading zeros while a position may not, on the command line, and in documents. All of
them read digits with `digits?`; what else they allow is said where they do.

Writing is core's `Nat.toDigits 10`, and `digits?_numeral` ties the two together.
-/

namespace MethodFingerprint.Text

/-- The number a nonempty run of ASCII digits spells. Leading zeros are allowed. -/
def digits? (s : List Char) : Option Nat :=
  if s ≠ [] ∧ s.all Char.isDigit then some (Nat.ofDigitChars 10 s 0) else none

/-- A number below `bound`, in digits that a plus sign may precede. -/
def signedDigits? (bound : Nat) (s : List Char) : Option Nat :=
  let unsigned := match s with
    | '+' :: rest => rest
    | _ => s
  (digits? unsigned).filter (· < bound)

/-- A number in its **plain form**: no sign and no leading zero. -/
def plainDigits? (s : List Char) : Option Nat :=
  match s with
  | '0' :: _ :: _ => none
  | _ => digits? s

/-- The plain form of a number. -/
def numeral (n : Nat) : List Char :=
  Nat.toDigits 10 n

/-- A whole number, which a minus sign may precede. -/
def integer? : List Char → Option Int
  | '-' :: s => (digits? s).map fun n : Nat ↦ -(n : Int)
  | s => (digits? s).map fun n : Nat ↦ (n : Int)

/-- A whole number with a minus sign where it needs one. -/
def integerNumeral (n : Int) : List Char :=
  if n < 0 then '-' :: numeral n.natAbs else numeral n.natAbs

/-- Every number has a digit. -/
theorem numeral_ne_nil (n : Nat) : numeral n ≠ [] :=
  Nat.toDigits_ne_nil

/-- A numeral consists of digits. -/
theorem isDigit_of_mem_numeral {n : Nat} {c : Char} (h : c ∈ numeral n) : c.isDigit = true :=
  Nat.isDigit_of_mem_toDigits (by decide) (by decide) h

/-- **A written number reads back.** -/
theorem digits?_numeral (n : Nat) : digits? (numeral n) = some n := by
  have h : (numeral n).all Char.isDigit = true :=
    List.all_eq_true.2 fun _ hc ↦ isDigit_of_mem_numeral hc
  rw [digits?, if_pos ⟨numeral_ne_nil n, h⟩, numeral,
    Nat.ofDigitChars_toDigits (by decide) (by decide)]

end MethodFingerprint.Text
