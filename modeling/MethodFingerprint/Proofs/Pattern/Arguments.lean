import MethodFingerprint.Pattern.Render
import MethodFingerprint.Proofs.Pattern.Grammar

/-!
# Arguments read back

The arguments of a section are written with a comma and a space between them. They read back because
what is written is a list of arguments as the grammar has it (`Pattern.listed_intercalate`): a
literal spells its value, whatever it holds (`Literal.spells_body`), and a word is an argument if it
has no comma and no blank and does not look like a literal (`Argument.IsWritable`).
-/

namespace MethodFingerprint

open Text

namespace Literal

/-- **What is written for a value spells it.** -/
theorem spells_body (value : List Char) : Spells (body value) value := by
  induction value with
  | nil => exact .nil
  | cons c value ih =>
    rw [body, List.flatMap_cons, written]
    split
    · rename_i e he
      exact .escape (unescape?_eq_some_iff.1 (unescape?_of_escape? he)) ih
    · rename_i he
      refine .plain ?_ ?_ ih
      · rintro rfl
        cases he
      · rintro rfl
        cases he

/-- A line feed, a carriage return and a tab are written as escapes. -/
theorem control_not_mem_written {x : Char} (hx : x ∈ ['\n', '\r', '\t']) (c : Char) :
    x ∉ written c := by
  unfold written
  split
  · rename_i e he
    -- what stands in an escape is a backslash and no control character
    have he' : e ∉ ['\n', '\r', '\t'] := by
      unfold escape? at he
      split at he <;> cases he <;> decide
    intro hmem
    rcases List.mem_cons.1 hmem with rfl | hmem
    · exact absurd hx (by decide)
    · exact he' (List.mem_singleton.1 hmem ▸ hx)
  · rename_i he
    rw [List.mem_singleton]
    rintro rfl
    simp only [List.mem_cons, List.not_mem_nil, or_false] at hx
    rcases hx with rfl | rfl | rfl <;> cases he

theorem control_not_mem_quote {x : Char} (hx : x ∈ ['\n', '\r', '\t']) (value : List Char) :
    x ∉ quote value := by
  have hquote : x ≠ '"' := by
    rintro rfl
    exact absurd hx (by decide)
  simp only [quote, body, List.mem_append, List.mem_cons, List.mem_flatMap, List.not_mem_nil,
    or_false, not_or, not_exists, not_and]
  exact ⟨⟨hquote, fun c _ ↦ control_not_mem_written hx c⟩, hquote⟩

/-- **A literal stays on one line.** -/
theorem newline_not_mem_quote (value : List Char) : '\n' ∉ quote value :=
  control_not_mem_quote List.mem_cons_self value

end Literal

namespace Pattern

namespace Argument

/-- An argument as it is written. -/
def text : Argument → List Char
  | literal value => Literal.quote value
  | word text => text

/-- Whether an argument reads as what it is: a word must not be empty, look like a literal or hold
a comma or a blank. -/
def IsWritable : Argument → Prop
  | literal _ => True
  | word text => text ≠ [] ∧ text.head? ≠ some '"' ∧ ∀ c ∈ text, isWordChar c = true

/-- **A writable argument is written as one may be.** -/
theorem IsWritable.isText {a : Argument} (h : a.IsWritable) : a.IsText a.text := by
  cases a with
  | literal value => exact .literal (Literal.spells_body value)
  | word text => exact .word h.1 h.2.1 h.2.2

end Argument

/-! ### Lists of arguments -/

variable {as : List Argument}

theorem argumentList_singleton (text : List Char) : argumentList [text] = text :=
  List.intercalate_singleton

theorem argumentList_cons_cons (text text' : List Char) (texts : List (List Char)) :
    argumentList (text :: text' :: texts) =
      text ++ ',' :: ' ' :: argumentList (text' :: texts) := by
  rw [argumentList, List.intercalate_cons_cons, List.append_assoc]
  rfl

section Separated

variable {before after : List Char}

/-- **Written arguments are listed**, whatever blanks stand around the commas, by induction on their
number. -/
theorem listed_intercalate (hbefore : Blank before) (hafter : Blank after)
    (h : ∀ a ∈ as, a.IsWritable) (hne : as ≠ []) :
    Listed Argument.IsText
      (List.intercalate (before ++ ',' :: after) (as.map Argument.text)) as := by
  induction as with
  | nil => exact absurd rfl hne
  | cons a as ih =>
    obtain ⟨ha, has⟩ := List.forall_mem_cons.1 h
    cases as with
    | nil =>
      have hlast := Listed.last blank_nil ha.isText blank_nil
      rw [List.nil_append, List.append_nil] at hlast
      rwa [List.map_singleton, List.intercalate_singleton]
    | cons b as =>
      -- the blanks behind a comma stand in front of the next argument
      have hrest := (ih has (List.cons_ne_nil b as)).blank_append hafter
      have hcomma := Listed.comma blank_nil ha.isText hbefore hrest
      rw [List.map_cons, List.map_cons, List.intercalate_cons_cons, ← List.map_cons]
      simpa using hcomma

/-- **Written arguments read back.** -/
theorem readArguments_intercalate (hbefore : Blank before) (hafter : Blank after)
    (h : ∀ a ∈ as, a.IsWritable) :
    readArguments false (List.intercalate (before ++ ',' :: after) (as.map Argument.text)) =
      .ok as := by
  cases as with
  | nil =>
    rw [readArguments]
    rfl
  | cons a as =>
    exact (listed_intercalate hbefore hafter h (List.cons_ne_nil a as)).readArguments_eq

end Separated

/-- They do so with a comma and a space between them. -/
theorem readArguments_argumentList (h : ∀ a ∈ as, a.IsWritable) :
    readArguments false (argumentList (as.map Argument.text)) = .ok as :=
  readArguments_intercalate blank_nil (blank_singleton (by decide)) h

end Pattern

end MethodFingerprint
