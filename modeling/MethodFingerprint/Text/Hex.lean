/-!
# Hexadecimal digits

Escapes in documents are given by codes in hexadecimal digits of either case, and digests are
written in lower case, two digits for every byte.
-/

namespace MethodFingerprint.Text

/-- The value of a hexadecimal digit. -/
def hexValue? (c : Char) : Option Nat :=
  if c.isDigit then some (c.toNat - '0'.toNat)
  else if 'a' ≤ c ∧ c ≤ 'f' then some (c.toNat - 'a'.toNat + 10)
  else if 'A' ≤ c ∧ c ≤ 'F' then some (c.toNat - 'A'.toNat + 10)
  else none

/-- The lower-case digit of a value below 16. -/
def hexDigit (n : Nat) : Char := Nat.digitChar (n % 16)

/-- The number that digits below `base` spell, at least one; the base is at most 16. -/
def digitsInBase? (base : Nat) (s : List Char) : Option Nat :=
  if s.isEmpty then none
  else s.foldlM (fun n c ↦ ((hexValue? c).filter (· < base)).map (n * base + ·)) 0

/-- Two digits for every byte. -/
def hexOfBytes (bytes : List UInt8) : List Char :=
  bytes.flatMap fun b ↦ [hexDigit (b.toNat / 16), hexDigit b.toNat]

/-- **A written digit reads back.** -/
theorem hexValue?_hexDigit {n : Nat} (h : n < 16) : hexValue? (hexDigit n) = some n := by
  have : ∀ n : Fin 16, hexValue? (hexDigit n) = some n.val := by decide
  exact this ⟨n, h⟩

end MethodFingerprint.Text
