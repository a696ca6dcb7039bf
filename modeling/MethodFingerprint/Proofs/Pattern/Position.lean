import MethodFingerprint.Proofs.Pattern.Fault

/-!
# Where a fault is

The number of a fault counts lines from the one the opening brace stands on. What is in front of the
brace, the header and the blanks around it, is taken off before any line is numbered, so no line
feed there is counted: the number stays the same if such blanks are added or left out. In the text
that was given, the line is further down by as many line feeds as there are in front of the brace
(`Pattern.parse_eq_line_error`). The two ways of counting agree exactly if the brace stands on the
first line of the text; with one line feed in front of the header they differ
(`Pattern.not_counted_from_start`).
-/

namespace MethodFingerprint

open Text

namespace Pattern

/-- The first line between the braces that is refused, by the number of lines in front of it: these
are accepted, and it is refused after them. -/
structure RefusedAt (inner : List Char) (k : Nat) (line : List Char)
    (fault : LineFault) : Prop where
  getElem?_eq : (lines inner)[k]? = some line
  refused : ∃ d, Draft.addLines {} 1 ((lines inner).take k) = .ok d ∧ d.addLine line = .error fault

variable {before gap inner after line : List Char} {k number : Nat} {fault : LineFault}

/-- The number of a line counts the lines in front of it and the line itself. -/
theorem exists_refusedAt (h : Draft.addLines {} 1 (lines inner) = .error (.line number fault)) :
    ∃ k line, number = k + 1 ∧ RefusedAt inner k line fault := by
  obtain ⟨k, line, d, fault', hk, htake, hfault, he⟩ :=
    Draft.exists_refused_of_addLines_eq_error h
  cases he
  exact ⟨k, line, Nat.add_comm 1 k, hk, d, htake, hfault⟩

/-- There is no line feed in front of the brace but among the blanks around the header. -/
theorem count_newline_braced (before gap : List Char) :
    (before ++ header ++ gap ++ ['{']).count '\n' = (before ++ gap).count '\n' := by
  have hheader : header.count '\n' = 0 := by decide
  have hbrace : ['{'].count '\n' = 0 := by decide
  simp only [List.count_append, hheader, hbrace, Nat.add_zero]

/-- **A line between the braces is further down in the text**, by the line feeds in front of the
brace. -/
theorem exists_line_of_getElem? (h : (lines inner)[k]? = some line) (before gap after : List Char) :
    ∃ whole, (lines (before ++ header ++ gap ++ '{' :: inner ++ '}' :: after))[
      (before ++ gap).count '\n' + k]? = some whole ∧ line <:+: whole := by
  obtain ⟨trail, htrail⟩ := exists_getElem?_lines_append h ('}' :: after)
  obtain ⟨lead, hlead⟩ := exists_getElem?_append_lines htrail (before ++ header ++ gap ++ ['{'])
  have htext : before ++ header ++ gap ++ ['{'] ++ (inner ++ '}' :: after) =
      before ++ header ++ gap ++ '{' :: inner ++ '}' :: after := by simp
  rw [count_newline_braced, htext] at hlead
  exact ⟨_, hlead, lead, trail, List.append_assoc _ _ _⟩

/-- What is wrong around the braces is not in one of the lines between them. -/
theorem body_ne_line_error (text : List Char) : body text ≠ .error (.line number fault) := by
  unfold body
  split
  · simp
  · split <;> simp

/-- A text with a fault in a line has braces, and the fault is in a line between them. -/
theorem exists_braced_of_parse_eq_line_error {text : String}
    (h : parse text = .error (.line number fault)) :
    ∃ before gap inner after, Blank before ∧ Blank gap ∧ Blank after ∧
      text.toList = before ++ header ++ gap ++ '{' :: inner ++ '}' :: after ∧
      Draft.addLines {} 1 (lines inner) = .error (.line number fault) := by
  rw [parse, parseChars] at h
  cases hbody : body text.toList with
  | error e =>
    rw [hbody] at h
    exact absurd (hbody.trans (congrArg _ (Except.error.inj h))) (body_ne_line_error _)
  | ok inner =>
    rw [hbody] at h
    obtain ⟨before, gap, after, hbefore, hgap, hafter, htext⟩ := body_eq_ok_iff.1 hbody
    refine ⟨before, gap, inner, after, hbefore, hgap, hafter, htext, ?_⟩
    dsimp only at h
    cases hadd : Draft.addLines {} 1 (lines inner) with
    | error e =>
      rw [hadd] at h
      exact congrArg _ (Except.error.inj h)
    | ok d =>
      rw [hadd] at h
      cases h

/-- **The number of a fault is counted from the opening brace.** A text with a fault in a line is a
header with blanks around it and lines in braces. The number counts from the line of the opening
brace: the lines above the one it names are accepted, and this one is refused. In the text, this
line is further down by the line feeds in front of the brace. Other blanks around the header, or
behind the closing brace, change nothing. So if blanks are put in front of the text, the number
moves on with their line feeds only if they have none. -/
theorem parse_eq_line_error (text : String) (number : Nat) (fault : LineFault)
    (h : parse text = .error (.line number fault)) :
    ∃ before gap inner after, Blank before ∧ Blank gap ∧ Blank after ∧
      text.toList = before ++ header ++ gap ++ '{' :: inner ++ '}' :: after ∧
      (∃ k line whole, number = k + 1 ∧ RefusedAt inner k line fault ∧
        (lines text.toList)[(before ++ gap).count '\n' + k]? = some whole ∧ line <:+: whole) ∧
      (∀ before' gap' after', Blank before' → Blank gap' → Blank after' →
        parse (String.ofList (before' ++ header ++ gap' ++ '{' :: inner ++ '}' :: after')) =
          .error (.line number fault)) ∧
      ∀ w : String, Blank w.toList →
        (parse (w ++ text) = .error (.line (number + w.toList.count '\n') fault) ↔
          '\n' ∉ w.toList) := by
  obtain ⟨before, gap, inner, after, hbefore, hgap, hafter, htext, hadd⟩ :=
    exists_braced_of_parse_eq_line_error h
  obtain ⟨k, line, hnumber, hrefused⟩ := exists_refusedAt hadd
  obtain ⟨whole, hwhole, hinfix⟩ := exists_line_of_getElem? hrefused.getElem?_eq before gap after
  have hsame (before' gap' after' : List Char) (hbefore' : Blank before') (hgap' : Blank gap')
      (hafter' : Blank after') :
      parse (String.ofList (before' ++ header ++ gap' ++ '{' :: inner ++ '}' :: after')) =
        .error (.line number fault) := by
    rw [parse_braced hbefore' hgap' hafter', hadd]
    rfl
  refine ⟨before, gap, inner, after, hbefore, hgap, hafter, htext,
    ⟨k, line, whole, hnumber, hrefused, ?_, hinfix⟩, hsame, fun w hw ↦ ?_⟩
  · rw [htext]
    exact hwhole
  · have hchars : w ++ text = String.ofList (w.toList ++ before ++ header ++ gap ++
        '{' :: inner ++ '}' :: after) := by
      rw [← String.toList_inj, String.toList_ofList, String.toList_append, htext]
      simp only [List.append_assoc, List.cons_append]
    have hshift : parse (w ++ text) = .error (.line number fault) := by
      rw [hchars]
      exact hsame _ gap after (hw.append hbefore) hgap hafter
    rw [hshift, Except.error.injEq, ParseError.line.injEq, and_iff_left rfl, ← List.count_eq_zero]
    omega

/-- A text with a line feed in front of the header and two more in front of the brace. -/
def unknownOnLineFive : String :=
  "\n fingerprint\n\n\x7b\n\topcodes(\"nop\")\n\x7d"

/-- The case of a fault on the fifth line of the text, which is reported to be on the second. -/
theorem parse_unknownOnLineFive :
    parse unknownOnLineFive = .error (.line 2 (.unknownSection "opcodes")) ∧
    ∃ before gap inner after, Blank before ∧ Blank gap ∧ Blank after ∧
      unknownOnLineFive.toList = before ++ header ++ gap ++ '{' :: inner ++ '}' :: after ∧
      (∃ k line whole, 2 = k + 1 ∧ RefusedAt inner k line (.unknownSection "opcodes") ∧
        (lines unknownOnLineFive.toList)[(before ++ gap).count '\n' + k]? = some whole ∧
        line <:+: whole) ∧
      (∀ before' gap' after', Blank before' → Blank gap' → Blank after' →
        parse (String.ofList (before' ++ header ++ gap' ++ '{' :: inner ++ '}' :: after')) =
          .error (.line 2 (.unknownSection "opcodes"))) ∧
      ∀ w : String, Blank w.toList →
        (parse (w ++ unknownOnLineFive) =
            .error (.line (2 + w.toList.count '\n') (.unknownSection "opcodes")) ↔
          '\n' ∉ w.toList) := by
  have hparse : parse unknownOnLineFive = .error (.line 2 (.unknownSection "opcodes")) := by
    decide +kernel
  exact ⟨hparse, parse_eq_line_error unknownOnLineFive 2 _ hparse⟩

/-- **Blanks in front of a text are not counted**, nor are those in front of its brace: not every
line feed there moves the number on by one. -/
theorem not_counted_from_start :
    (¬∀ (text w : String) (number : Nat) (fault : LineFault), Blank w.toList →
      parse text = .error (.line number fault) →
        parse (w ++ text) = .error (.line (number + w.toList.count '\n') fault)) ∧
    ¬∀ (rest : String) (j number : Nat) (fault : LineFault),
      parse (String.ofList (header ++ rest.toList)) = .error (.line number fault) →
        parse (String.ofList (header ++ List.replicate j '\n' ++ rest.toList)) =
          .error (.line (number + j) fault) := by
  have hblank : Blank "\n".toList := blank_singleton (by decide)
  constructor
  · intro hcounted
    have hfirst : parse "fingerprint \x7b\n\topcodes(\"nop\")\n\x7d" =
        .error (.line 2 (.unknownSection "opcodes")) := by decide +kernel
    have hsecond : parse ("\n" ++ "fingerprint \x7b\n\topcodes(\"nop\")\n\x7d") =
        .error (.line 2 (.unknownSection "opcodes")) := by decide +kernel
    have hthird := hcounted _ "\n" 2 _ hblank hfirst
    rw [hsecond] at hthird
    revert hthird
    decide
  · intro hcounted
    have hfirst : parse (String.ofList (header ++ " \x7b\n\topcodes(\"nop\")\n\x7d".toList)) =
        .error (.line 2 (.unknownSection "opcodes")) := by decide +kernel
    have hsecond : parse (String.ofList (header ++ List.replicate 1 '\n' ++
        " \x7b\n\topcodes(\"nop\")\n\x7d".toList)) =
        .error (.line 2 (.unknownSection "opcodes")) := by decide +kernel
    have hthird := hcounted _ 1 2 _ hfirst
    rw [hsecond] at hthird
    revert hthird
    decide

end Pattern

end MethodFingerprint
