import MethodFingerprint.Proofs.Pattern.Arguments
import MethodFingerprint.Proofs.Pattern.Recognition

/-!
# Sections read back

A **clause** is a section with its arguments, between being chosen and being written. A clause fills
one line, the line reads back as the clause (`Pattern.readLine_text`), and a pattern written from
clauses reads as what they say one after the other (`Pattern.parseChars_textOfSections`).

Nothing here depends on which clauses are written: their order and number are the business of the
writer, and what a clause means is that of `Draft.add`.
-/

namespace MethodFingerprint

open Text

namespace Pattern

/-! ### Clauses -/

/-- A section with its arguments. -/
structure Clause where
  kind : Section
  arguments : List Argument

namespace Clause

/-- A clause as it is written. -/
def text (c : Clause) : List Char := sectionText c.kind (c.arguments.map Argument.text)

/-- A clause as a line is taken apart. -/
def line (c : Clause) : SectionLine := ⟨c.kind.name.toList, c.arguments⟩

/-- Whether all arguments read back. -/
def IsWritable (c : Clause) : Prop := ∀ a ∈ c.arguments, a.IsWritable

end Clause

variable {c : Clause} {cs : List Clause} {d d' : Draft}

/-- An argument stays on one line. -/
theorem Argument.IsWritable.newline_not_mem {a : Argument} (h : a.IsWritable) : '\n' ∉ a.text := by
  cases a with
  | literal value => exact Literal.newline_not_mem_quote value
  | word text =>
    intro hmem
    have hword := h.2.2 _ hmem
    revert hword
    decide

/-- Arguments stay on one line. -/
theorem newline_not_mem_argumentList {texts : List (List Char)} (h : ∀ t ∈ texts, '\n' ∉ t) :
    '\n' ∉ argumentList texts := by
  induction texts with
  | nil => exact List.not_mem_nil
  | cons text texts ih =>
    obtain ⟨htext, htexts⟩ := List.forall_mem_cons.1 h
    cases texts with
    | nil => rwa [argumentList_singleton]
    | cons text' texts =>
      rw [argumentList_cons_cons]
      simp only [List.mem_append, List.mem_cons, not_or]
      exact ⟨htext, by decide, by decide, ih htexts⟩

/-- **A clause stays on one line.** -/
theorem Clause.IsWritable.newline_not_mem (h : c.IsWritable) : '\n' ∉ c.text := by
  obtain ⟨n, ns, hname, -, -, hnewline⟩ := c.kind.exists_name_eq_cons
  have harguments := newline_not_mem_argumentList (List.forall_mem_map.2 fun a ha ↦
    (h a ha).newline_not_mem)
  rw [Clause.text, sectionText, hname]
  simp only [List.mem_append, List.mem_cons, List.not_mem_nil, or_false, not_or] at hnewline ⊢
  exact ⟨⟨hnewline, by decide, harguments⟩, by decide⟩

/-- **A clause reads back** from its line. -/
theorem readLine_text (h : c.IsWritable) : readLine ('\t' :: c.text) = .ok (some c.line) := by
  have htab : Blank ['\t'] := blank_singleton (by decide)
  have hline := readLine_section htab blank_nil blank_nil c.kind
    (argumentList (c.arguments.map Argument.text))
  rw [readArguments_argumentList h, List.append_nil] at hline
  exact hline

/-! ### Adding clauses -/

namespace Draft

/-- Adds what clauses say, up to the first that cannot be added. -/
def addClauses (d : Draft) (cs : List Clause) : Except LineFault Draft :=
  cs.foldlM (fun d c ↦ d.add c.line) d

@[simp] theorem addClauses_singleton (d : Draft) (c : Clause) :
    d.addClauses [c] = d.add c.line := by
  rw [addClauses, List.foldlM_cons]
  cases d.add c.line <;> rfl

/-- Clauses that can be added are added before the others. -/
theorem addClauses_append {cs' : List Clause} (h : d.addClauses cs = .ok d') :
    d.addClauses (cs ++ cs') = d'.addClauses cs' := by
  rw [addClauses, List.foldlM_append]
  rw [addClauses] at h
  rw [h]
  rfl

end Draft

/-! ### Whole patterns -/

/-- **Clauses are read one after the other.** -/
theorem addLines_map_text (h : ∀ c ∈ cs, c.IsWritable) (number : Nat)
    (hadd : d.addClauses cs = .ok d') :
    d.addLines number (cs.map (fun c ↦ '\t' :: c.text) ++ [[]]) = .ok d' := by
  induction cs generalizing d number with
  | nil =>
    cases hadd
    rfl
  | cons c cs ih =>
    obtain ⟨hc, hcs⟩ := List.forall_mem_cons.1 h
    rw [Draft.addClauses, List.foldlM_cons] at hadd
    have hline : d.addLine ('\t' :: c.text) = d.add c.line := by
      rw [Draft.addLine, readLine_text hc]
    rw [List.map_cons, List.cons_append, Draft.addLines, hline]
    cases hd : d.add c.line with
    | error fault =>
      rw [hd] at hadd
      cases hadd
    | ok d₁ =>
      rw [hd] at hadd
      exact ih hcs _ hadd

/-- What stands between the braces of a written pattern. -/
theorem body_textOfSections (sections : List (List Char)) :
    body (textOfSections sections) =
      .ok ('\n' :: sections.flatMap fun s ↦ '\t' :: s ++ ['\n']) := by
  have hspace : Blank [' '] := blank_singleton (by decide)
  exact body_eq_ok_iff.2 ⟨[], [' '], [], blank_nil, hspace, blank_nil, rfl⟩

/-- **A pattern written from clauses reads as what they say.** -/
theorem parseChars_textOfSections (h : ∀ c ∈ cs, c.IsWritable)
    (hadd : Draft.addClauses {} cs = .ok d) :
    parseChars (textOfSections (cs.map Clause.text)) = .ok d.pattern := by
  have hlines : lines ((cs.map Clause.text).flatMap fun s ↦ '\t' :: s ++ ['\n']) =
      cs.map (fun c ↦ '\t' :: c.text) ++ [[]] := by
    have hflat := lines_flatMap (cs.map fun c ↦ '\t' :: c.text) (List.forall_mem_map.2 fun c hc ↦ by
      rw [List.mem_cons, not_or]
      exact ⟨by decide, (h c hc).newline_not_mem⟩)
    rw [← hflat, List.flatMap_map, List.flatMap_map]
  rw [parseChars, body_textOfSections]
  dsimp only
  -- the line of the opening brace is empty
  have hfirst : Draft.addLine {} [] = .ok {} := rfl
  rw [lines, if_pos rfl, hlines, Draft.addLines, hfirst]
  dsimp only
  rw [addLines_map_text h 2 hadd]
  rfl

end Pattern

end MethodFingerprint
