import MethodFingerprint.Proofs.Pattern.Arguments
import Mathlib.Algebra.Ring.Parity

/-!
# Literals end where they were closed

Whatever a value holds, its literal cannot be left early and cannot take in what stands behind it.
There are two ways to see this, and both are here.

A reader sees it by reading: `Literal.read_body_append` gives the value back and leaves the rest
alone, whatever the rest is. Values are therefore told apart by their literals, and a list of
literals with commas between them is read as the list of the values.

A reader of the text alone sees it by counting. A character is **escaped** if an odd number of
backslashes stands directly in front of it. Behind every written character this number is even
(`Literal.even_backslashes_written`), since a backslash is itself written with another one. So in a
literal the dollar signs are escaped, and of the quotation marks all but the first and the last
(`Literal.odd_backslashes_quotationMark_iff`).
-/

namespace MethodFingerprint

open Text

namespace Literal

variable {s value before after : List Char} {c x : Char}

/-! ### Backslashes in front of a character -/

/-- The number of backslashes that a text ends with. -/
def backslashes (s : List Char) : Nat :=
  (s.reverse.takeWhile fun c ↦ c == '\\').length

theorem backslashes_concat_backslash (s : List Char) :
    backslashes (s ++ ['\\']) = backslashes s + 1 := by
  simp [backslashes]

theorem backslashes_concat_of_ne (hc : c ≠ '\\') (s : List Char) :
    backslashes (s ++ [c]) = 0 := by
  simp [backslashes, hc]

/-- A character is written with a backslash and one more character, or as itself, and is then no
backslash. -/
theorem written_cases (c : Char) :
    (∃ e, escape? c = some e ∧ written c = ['\\', e]) ∨
      escape? c = none ∧ c ≠ '\\' ∧ written c = [c] := by
  unfold written
  cases he : escape? c with
  | some e => exact Or.inl ⟨e, rfl, rfl⟩
  | none =>
    refine Or.inr ⟨rfl, ?_, rfl⟩
    rintro rfl
    cases he

/-- **Behind a written character the number of backslashes is even** if it was in front of it. -/
theorem even_backslashes_written (h : Even (backslashes s)) (c : Char) :
    Even (backslashes (s ++ written c)) := by
  rcases written_cases c with ⟨e, -, hwritten⟩ | ⟨-, hc, hwritten⟩
  · have hsplit : s ++ ['\\', e] = (s ++ ['\\']) ++ [e] := by simp
    rw [hwritten, hsplit]
    by_cases he : e = '\\'
    · rw [he, backslashes_concat_backslash, backslashes_concat_backslash]
      exact h.add_one.add_one
    · rw [backslashes_concat_of_ne he]
      exact Even.zero
  · rw [hwritten, backslashes_concat_of_ne hc]
    exact Even.zero

theorem even_backslashes_body (h : Even (backslashes s)) (value : List Char) :
    Even (backslashes (s ++ body value)) := by
  induction value generalizing s with
  | nil => simpa [body] using h
  | cons c value ih =>
    rw [body, List.flatMap_cons, ← List.append_assoc]
    exact ih (even_backslashes_written h c)

/-- **A character with an escape is written behind an odd number of backslashes**, unless it is a
backslash. By induction on the value: either the character is in what is written for the first
character of the value, and then stands behind its backslash, or it is further on. -/
theorem odd_backslashes_of_body_eq (hx : escape? x ≠ none) (hne : x ≠ '\\')
    (hs : Even (backslashes s)) (h : body value = before ++ x :: after) :
    Odd (backslashes (s ++ before)) := by
  induction value generalizing s before with
  | nil => simp [body] at h
  | cons c value ih =>
    have heven := even_backslashes_written hs c
    have hcons : body (c :: value) = written c ++ body value := List.flatMap_cons
    rw [hcons] at h
    rcases written_cases c with ⟨e, -, hwritten⟩ | ⟨hc, -, hwritten⟩
    · rw [hwritten] at h heven
      cases before with
      | nil => exact absurd (List.cons.inj h).1.symm hne
      | cons b before =>
        obtain ⟨hb, htail⟩ := List.cons.inj h
        cases before with
        | nil =>
          rw [← hb, backslashes_concat_backslash]
          exact hs.add_one
        | cons b' before =>
          obtain ⟨hb', htail⟩ := List.cons.inj htail
          have hodd := ih heven htail
          rw [hb, hb'] at hodd
          rwa [List.append_assoc] at hodd
    · rw [hwritten] at h heven
      cases before with
      | nil =>
        obtain ⟨rfl, -⟩ := List.cons.inj h
        exact absurd hc hx
      | cons b before =>
        obtain ⟨hb, htail⟩ := List.cons.inj h
        have hodd := ih heven htail
        rw [hb] at hodd
        rwa [List.append_assoc] at hodd

/-! ### What stands in a literal -/

/-- Between the quotation marks of a literal stands the body. -/
theorem exists_eq_of_quote_eq (h : quote value = before ++ x :: after) (hbefore : before ≠ [])
    (hafter : after ≠ []) :
    ∃ inner rest, before = '"' :: inner ∧ body value = inner ++ x :: rest := by
  obtain ⟨b, inner, rfl⟩ := List.exists_cons_of_ne_nil hbefore
  obtain ⟨rest, a, rfl⟩ := (List.eq_nil_or_concat after).resolve_left hafter
  obtain ⟨hb, htail⟩ := List.cons.inj h
  have hlast : body value ++ ['"'] = (inner ++ x :: rest) ++ [a] := by simpa using htail
  exact ⟨inner, rest, by rw [hb], (List.append_inj' hlast rfl).1⟩

/-- **What has an escape is escaped in a literal**, but for the backslashes themselves. -/
theorem odd_backslashes_of_quote_eq (hx : escape? x ≠ none) (hne : x ≠ '\\')
    (h : quote value = before ++ x :: after) (hbefore : before ≠ []) (hafter : after ≠ []) :
    Odd (backslashes before) := by
  obtain ⟨inner, rest, rfl, hbody⟩ := exists_eq_of_quote_eq h hbefore hafter
  have hquote : Even (backslashes ['"']) := Even.zero
  exact odd_backslashes_of_body_eq hx hne hquote hbody

/-- **The quotation marks inside a literal are escaped, and those around it are not.** -/
theorem odd_backslashes_quotationMark_iff (h : quote value = before ++ '"' :: after) :
    Odd (backslashes before) ↔ before ≠ [] ∧ after ≠ [] := by
  constructor
  · intro hodd
    refine ⟨?_, ?_⟩
    · rintro rfl
      exact absurd hodd (by decide)
    · rintro rfl
      have hquote : Even (backslashes ['"']) := Even.zero
      have heven := even_backslashes_body hquote value
      have hbefore : '"' :: body value = before := (List.append_inj' h rfl).1
      rw [← hbefore] at hodd
      exact Nat.not_odd_iff_even.2 heven hodd
  · rintro ⟨hbefore, hafter⟩
    exact odd_backslashes_of_quote_eq (by decide) (by decide) h hbefore hafter

/-- Dollar signs are not at the ends of a literal, so they are escaped. -/
theorem odd_backslashes_dollar (h : quote value = before ++ '$' :: after) :
    Odd (backslashes before) := by
  refine odd_backslashes_of_quote_eq (by decide) (by decide) h ?_ ?_
  · rintro rfl
    cases (List.cons.inj h).1
  · rintro rfl
    cases List.singleton_inj.1 (List.append_inj' h rfl).2

/-! ### Reading literals -/

/-- **Values are told apart by their literals.** -/
theorem quote_injective : Function.Injective quote := by
  intro value value' h
  have hbody : body value ++ ['"'] = body value' ++ ['"'] := (List.cons.inj h).2
  have hread := read_body_append value []
  rw [hbody, read_body_append] at hread
  exact (congrArg Prod.fst (Except.ok.inj hread)).symm

/-- **Literals with commas between them are read as the values**, whatever blanks stand around the
commas. -/
theorem readArguments_quotes (hbefore : Blank before) (hafter : Blank after)
    (values : List (List Char)) :
    Pattern.readArguments false (List.intercalate (before ++ ',' :: after) (values.map quote)) =
      .ok (values.map .literal) := by
  have htexts : values.map quote = (values.map Pattern.Argument.literal).map
      Pattern.Argument.text := by
    rw [List.map_map]
    rfl
  rw [htexts]
  exact Pattern.readArguments_intercalate hbefore hafter
    (List.forall_mem_map.2 fun value _ ↦ trivial)

/-- **Literals delimit themselves.** A literal starts with a quotation mark, and reading what stands
behind this mark gives the value and leaves exactly what follows the literal, whatever it is. No
line feed, carriage return or tab stands in it; every dollar sign in it is escaped, and a quotation
mark is escaped unless it is the first or the last character. So any literals with commas between
them are read as their values, and no two values have the same literal. -/
theorem quote_delimits :
    (∀ value rest, ∃ inner, quote value = '"' :: inner ∧
      read (inner ++ rest) = .ok (value, rest)) ∧
    (∀ value, '\n' ∉ quote value ∧ '\r' ∉ quote value ∧ '\t' ∉ quote value) ∧
    (∀ value before after, quote value = before ++ '$' :: after → Odd (backslashes before)) ∧
    (∀ value before after, quote value = before ++ '"' :: after →
      (Odd (backslashes before) ↔ before ≠ [] ∧ after ≠ [])) ∧
    (∀ (values : List (List Char)) before after, Blank before → Blank after →
      Pattern.readArguments false (List.intercalate (before ++ ',' :: after) (values.map quote)) =
        .ok (values.map .literal)) ∧
    Function.Injective quote := by
  refine ⟨fun value rest ↦ ⟨body value ++ ['"'], rfl, ?_⟩, fun value ↦ ?_,
    fun _ _ _ ↦ odd_backslashes_dollar, fun _ _ _ ↦ odd_backslashes_quotationMark_iff,
    fun values _ _ hbefore hafter ↦ readArguments_quotes hbefore hafter values, quote_injective⟩
  · rw [List.append_assoc]
    exact read_body_append value rest
  · exact ⟨control_not_mem_quote (by decide) value, control_not_mem_quote (by decide) value,
      control_not_mem_quote (by decide) value⟩

/-- A value with all the characters that could end its literal early. -/
def mixedValue : List Char := ['a', '\\', '"', '$']

/-- The case of such a value: its dollar sign, its quotation mark, and two of its literals read one
after the other. -/
theorem quote_delimits_mixedValue :
    (quote mixedValue = ['"', 'a', '\\', '\\', '\\', '"', '\\'] ++ '$' :: ['"'] ∧
      Odd (backslashes ['"', 'a', '\\', '\\', '\\', '"', '\\'])) ∧
    (quote mixedValue = ['"', 'a', '\\', '\\', '\\'] ++ '"' :: ['\\', '$', '"'] ∧
      Odd (backslashes ['"', 'a', '\\', '\\', '\\'])) ∧
    (Blank [] ∧ Blank [' '] ∧
      Pattern.readArguments false
          (List.intercalate ([] ++ ',' :: [' ']) ([mixedValue, mixedValue].map quote)) =
        .ok ([mixedValue, mixedValue].map .literal)) := by
  obtain ⟨-, -, hdollar, hquotationMark, hread, -⟩ := quote_delimits
  have hspace : Blank [' '] := blank_singleton (by decide)
  exact ⟨⟨by decide, hdollar mixedValue _ ['"'] (by decide)⟩,
    ⟨by decide, (hquotationMark mixedValue _ ['\\', '$', '"'] (by decide)).2 (by decide)⟩,
    blank_nil, hspace, hread _ [] [' '] blank_nil hspace⟩

end Literal

end MethodFingerprint
