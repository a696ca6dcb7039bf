import MethodFingerprint.Feature

/-!
# Tokens read back

A token is made from a category and a value and cut at its first bar. As no category has a bar in it
(`Category.bar_not_mem_text`), the cut gives back the two parts, whatever the value holds, and
tokens of different categories are different.

`Feature.read_ofReading` is the round trip for what a token says. It asks that a position is one
that tokens may name; everything else is read as it was written.
-/

namespace MethodFingerprint

open Text

/-! ### Numerals -/

namespace Text

/-- A numeral with more than one digit does not start with a zero. -/
theorem head?_numeral_ne_zero {n : Nat} (hn : n ≠ 0) : (numeral n).head? ≠ some '0' := by
  induction n using Nat.strongRecOn with
  | ind n ih =>
    by_cases hlt : n < 10
    · rw [numeral, Nat.toDigits_of_lt_base hlt, List.head?_singleton]
      -- of the ten digits only the zero is written as one
      have hdigits : ∀ d : Fin 10, d.val ≠ 0 → some (Nat.digitChar d) ≠ some '0' := by decide
      exact hdigits ⟨n, hlt⟩ hn
    · have hle : 10 ≤ n := Nat.le_of_not_lt hlt
      have hrest : (numeral (n / 10)).head? ≠ some '0' := ih (n / 10) (by omega) (by omega)
      obtain ⟨c, s, hcons⟩ := List.exists_cons_of_ne_nil (numeral_ne_nil (n / 10))
      rw [hcons] at hrest
      rw [numeral, Nat.toDigits_of_base_le (by decide) hle, ← numeral, hcons]
      exact hrest

/-- **A numeral is plain.** -/
theorem plainDigits?_numeral (n : Nat) : plainDigits? (numeral n) = some n := by
  by_cases hn : n = 0
  · subst hn
    decide
  · have hhead := head?_numeral_ne_zero hn
    unfold plainDigits?
    split
    · rename_i heq
      rw [heq] at hhead
      exact absurd rfl hhead
    · exact digits?_numeral n

/-- A numeral has no sign. -/
theorem signedDigits?_numeral {n bound : Nat} (hn : n < bound) :
    signedDigits? bound (numeral n) = some n := by
  unfold signedDigits?
  split
  · rename_i rest heq
    have hplus : '+' ∈ numeral n := heq ▸ List.mem_cons_self
    exact absurd (isDigit_of_mem_numeral hplus) (by decide)
  · show (digits? (numeral n)).filter (· < bound) = some n
    rw [digits?_numeral]
    simp [hn]

end Text

/-! ### Categories -/

namespace Category

/-- **No category has a bar in it.** -/
theorem bar_not_mem_text (c : Category) : '|' ∉ c.text.toList := by
  cases c with
  | returnType => decide
  | strings => decide
  | accessFlags => decide
  | parameter index =>
    rw [text, String.toList_append, String.toList_ofList (l := numeral index), List.mem_append,
      not_or]
    refine ⟨by decide, fun hbar ↦ ?_⟩
    exact absurd (isDigit_of_mem_numeral hbar) (by decide)

end Category

namespace Feature

/-- A token is cut between its category and its value. -/
theorem splitFirst?_ofCategory (c : Category) (value : String) :
    splitFirst? '|' (ofCategory c value).token.toList = some (c.text.toList, value.toList) := by
  refine splitFirst?_eq_some.2 ⟨?_, c.bar_not_mem_text⟩
  rw [ofCategory, String.toList_append, String.toList_append, List.append_assoc]
  rfl

/-! ### Reading what was written -/

theorem read_returnType (descriptor : String) :
    (returnType descriptor).read = .ok (.returnType descriptor) := by
  rw [read, returnType, splitFirst?_ofCategory]
  dsimp only [Category.text]
  rw [if_pos rfl, String.ofList_toList]

theorem read_string (literal : String) : (string literal).read = .ok (.string literal) := by
  rw [read, string, splitFirst?_ofCategory]
  dsimp only [Category.text]
  rw [if_neg (by decide), if_pos rfl, String.ofList_toList]

theorem read_accessFlags (mask : UInt32) : (accessFlags mask).read = .ok (.accessFlags mask) := by
  have hmask : readMask? (numeral mask.toNat) = some mask := by
    rw [readMask?, signedDigits?_numeral mask.toNat_lt, Option.map_some, UInt32.ofNat_toNat]
  rw [read, accessFlags, splitFirst?_ofCategory, String.toList_ofList]
  dsimp only [Category.text]
  rw [if_neg (by decide), if_neg (by decide), if_pos rfl, hmask]

theorem read_parameter {index : Nat} (hindex : index ≤ maxParameterIndex) (descriptor : String) :
    (parameter index descriptor).read = .ok (.parameter index descriptor) := by
  have htext : (Category.parameter index).text.toList = "parameter_".toList ++ numeral index := by
    rw [Category.text, String.toList_append, String.toList_ofList (l := numeral index)]
  have hread : readIndex? (numeral index) = some index := by
    rw [readIndex?, plainDigits?_numeral]
    simp [hindex]
  -- the first letters tell the category from the others
  have hne (word : List Char) (hword : word.head? ≠ some 'p') :
      (Category.parameter index).text.toList ≠ word := by
    rintro rfl
    rw [htext] at hword
    exact hword rfl
  rw [read, parameter, splitFirst?_ofCategory]
  dsimp only
  rw [if_neg (hne _ (by decide)), if_neg (hne _ (by decide)), if_neg (hne _ (by decide)), htext,
    afterHead?_eq_some.2 rfl]
  dsimp only
  rw [hread, String.ofList_toList]


/-- **A token says what it was made to say.** -/
theorem read_ofReading {r : Reading}
    (hr : ∀ index descriptor, r = .parameter index descriptor → index ≤ maxParameterIndex) :
    (ofReading r).read = .ok r := by
  cases r with
  | returnType descriptor => exact read_returnType descriptor
  | parameter index descriptor => exact read_parameter (hr index descriptor rfl) descriptor
  | string literal => exact read_string literal
  | accessFlags mask => exact read_accessFlags mask

end Feature

end MethodFingerprint
