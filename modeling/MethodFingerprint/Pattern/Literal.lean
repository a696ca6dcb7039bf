/-!
# Quoted literals

The values in a pattern are written between quotation marks. Six characters have an **escape**, a
backslash and one more character: the backslash itself, the quotation mark, the dollar sign, and the
line feed, the carriage return and the tab, so that a literal stays on one line. Every other
character stands for itself.

A literal ends where it seems to: `read_body_append` says that reading what was written gives the
value back and leaves exactly what stood behind the literal.
-/

namespace MethodFingerprint.Literal

/-- The character that stands behind the backslash in the escape of a character. -/
def escape? : Char → Option Char
  | '\\' => some '\\'
  | '"' => some '"'
  | '$' => some '$'
  | '\n' => some 'n'
  | '\r' => some 'r'
  | '\t' => some 't'
  | _ => none

/-- The character whose escape has the given character behind the backslash. -/
def unescape? : Char → Option Char
  | '\\' => some '\\'
  | '"' => some '"'
  | '$' => some '$'
  | 'n' => some '\n'
  | 'r' => some '\r'
  | 't' => some '\t'
  | _ => none

/-- One character as it stands in a literal. -/
def written (c : Char) : List Char :=
  match escape? c with
  | some e => ['\\', e]
  | none => [c]

/-- A value as it stands between the quotation marks. -/
def body (value : List Char) : List Char :=
  value.flatMap written

/-- **A value as a literal.** -/
def quote (value : List Char) : List Char :=
  '"' :: body value ++ ['"']

/-- Why a text is no literal. -/
inductive Fault where
  /-- The text ends before the closing quotation mark. -/
  | unterminated
  /-- A backslash stands before a character that makes no escape. -/
  | unknownEscape (c : Char)
  deriving DecidableEq, Repr

/-- Reads a literal whose opening quotation mark has been taken: its value and what follows it. -/
def read : List Char → Except Fault (List Char × List Char)
  | [] => .error .unterminated
  | '"' :: rest => .ok ([], rest)
  | ['\\'] => .error .unterminated
  | '\\' :: e :: rest =>
    match unescape? e with
    | some c => (read rest).map fun r ↦ (c :: r.1, r.2)
    | none => .error (.unknownEscape e)
  | c :: rest => (read rest).map fun r ↦ (c :: r.1, r.2)

/-! ### Reading what was written -/

theorem unescape?_of_escape? {c e : Char} (h : escape? c = some e) : unescape? e = some c := by
  unfold escape? at h
  split at h <;> cases h <;> rfl

/-- A written character reads as itself, whatever follows. -/
theorem read_written_append (c : Char) (rest : List Char) :
    read (written c ++ rest) = (read rest).map fun r ↦ (c :: r.1, r.2) := by
  unfold written
  split
  · rename_i e he
    simp only [List.cons_append, List.nil_append, read, unescape?_of_escape? he]
  · rename_i he
    have hq : c ≠ '"' := by rintro rfl; cases he
    have hb : c ≠ '\\' := by rintro rfl; cases he
    rw [List.singleton_append, read.eq_def]
    split
    · contradiction
    · simp_all
    · simp_all
    · simp_all
    · rename_i heq
      obtain ⟨rfl, rfl⟩ := List.cons.inj heq
      rfl

/-- **A literal reads back**, and what follows it is left alone. -/
theorem read_body_append (value rest : List Char) :
    read (body value ++ '"' :: rest) = .ok (value, rest) := by
  induction value with
  | nil => simp [body, read]
  | cons c value ih =>
    rw [body, List.flatMap_cons, List.append_assoc, read_written_append]
    rw [body] at ih
    rw [ih]
    rfl

/-- Reading takes at least the closing quotation mark. -/
theorem length_lt_of_read {s value rest : List Char} (h : read s = .ok (value, rest)) :
    rest.length < s.length := by
  fun_induction read s generalizing value rest with
  | case1 => cases h
  | case2 => cases h; simp
  | case3 => cases h
  | case4 e r c he ih =>
    cases hr : read r with
    | error => rw [hr] at h; cases h
    | ok p =>
      rw [hr] at h
      cases h
      have := ih hr
      simp only [List.length_cons]
      omega
  | case5 => cases h
  | case6 c r _ _ _ ih =>
    cases hr : read r with
    | error => rw [hr] at h; cases h
    | ok p =>
      rw [hr] at h
      cases h
      have := ih hr
      simp only [List.length_cons]
      omega

end MethodFingerprint.Literal
