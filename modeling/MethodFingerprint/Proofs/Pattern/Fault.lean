import MethodFingerprint.Proofs.Pattern.Recognition
import Mathlib.Order.Bounds.Defs

/-!
# The first bad line

The lines of a pattern are read from the top, and what they have said so far is carried along in a
draft. Whether a line is accepted may depend on all lines before it, as every section may come only
once, but it never depends on a line behind it (`Pattern.Draft.addLines_append`). So a fault that is
reported is there as soon as the line it is in has been read
(`Pattern.Draft.exists_of_addLines_eq_error`), and it stays the same whatever is written behind this
line (`Pattern.parse_textOfLines_of_isLeast`).
-/

namespace MethodFingerprint

open Text

namespace Pattern

namespace Draft

variable {d : Draft} {number : Nat} {ls : List (List Char)} {e : ParseError}

/-- **Lines are read from the top**, and those behind a fault are not looked at. By induction on the
first of two groups of lines; the second is numbered on from it. -/
theorem addLines_append (d : Draft) (number : Nat) (ls rest : List (List Char)) :
    d.addLines number (ls ++ rest) =
      (d.addLines number ls).bind fun d' ↦ d'.addLines (number + ls.length) rest := by
  induction ls generalizing d number with
  | nil => rfl
  | cons line ls ih =>
    rw [List.cons_append, addLines, addLines]
    cases d.addLine line with
    | error fault => rfl
    | ok d' =>
      dsimp only
      rw [ih, List.length_cons, Nat.add_right_comm, Nat.add_assoc]

/-- **A fault is that of one line**, and goes by its number. The lines in front of it are accepted,
and after them it is refused. -/
theorem exists_refused_of_addLines_eq_error (h : d.addLines number ls = .error e) :
    ∃ k line d' fault, ls[k]? = some line ∧ d.addLines number (ls.take k) = .ok d' ∧
      d'.addLine line = .error fault ∧ e = .line (number + k) fault := by
  induction ls generalizing d number with
  | nil => cases h
  | cons line ls ih =>
    rw [addLines] at h
    cases hline : d.addLine line with
    | error fault =>
      rw [hline] at h
      exact ⟨0, line, d, fault, rfl, rfl, hline, (Except.error.inj h).symm⟩
    | ok d₁ =>
      rw [hline] at h
      obtain ⟨k, line', d', fault, hk, htake, hfault, he⟩ := ih h
      refine ⟨k + 1, line', d', fault, hk, ?_, hfault, ?_⟩
      · rw [List.take_succ_cons, addLines, hline]
        exact htake
      · rw [he, Nat.add_assoc, Nat.add_comm 1 k]

/-- The lines up to the one that a fault is in have it already. -/
theorem exists_of_addLines_eq_error (h : d.addLines number ls = .error e) :
    ∃ k < ls.length, d.addLines number (ls.take (k + 1)) = .error e ∧
      ∃ fault, e = .line (number + k) fault := by
  obtain ⟨k, line, d', fault, hk, htake, hfault, he⟩ := exists_refused_of_addLines_eq_error h
  obtain ⟨hlt, -⟩ := List.getElem?_eq_some_iff.1 hk
  refine ⟨k, hlt, ?_, fault, he⟩
  rw [List.take_add_one, hk, addLines_append, htake, List.length_take_of_le hlt.le, he]
  show d'.addLines (number + k) [line] = .error (.line (number + k) fault)
  rw [addLines, hfault]

end Draft

/-! ### Whole texts -/

/-- **A text in braces is read line by line**, whatever blanks stand around its header and behind
the closing brace. -/
theorem parse_braced {before gap inner after : List Char} (hbefore : Blank before)
    (hgap : Blank gap) (hafter : Blank after) :
    parse (String.ofList (before ++ header ++ gap ++ '{' :: inner ++ '}' :: after)) =
      (Draft.addLines {} 1 (lines inner)).map Draft.pattern := by
  have hbody : body (before ++ header ++ gap ++ '{' :: inner ++ '}' :: after) = .ok inner :=
    body_eq_ok_iff.2 ⟨before, gap, after, hbefore, hgap, hafter, rfl⟩
  rw [parse, parseChars, String.toList_ofList, hbody]

/-- A pattern with the given lines between its braces, which stand on lines of their own. -/
def textOfLines (ls : List String) : String :=
  String.ofList (header ++ [' ', '{', '\n'] ++ ls.flatMap (fun l ↦ l.toList ++ ['\n']) ++ ['}'])

variable {ls : List String}

/-- **Lines between braces are read one after the other.** The brace stands on line 1. -/
theorem parse_textOfLines (h : ∀ l ∈ ls, '\n' ∉ l.toList) :
    parse (textOfLines ls) =
      (Draft.addLines {} 2 (ls.map String.toList)).map Draft.pattern := by
  have htext : textOfLines ls = String.ofList ([] ++ header ++ [' '] ++
      '{' :: ('\n' :: (ls.map String.toList).flatMap fun l ↦ l ++ ['\n']) ++ '}' :: []) := by
    rw [textOfLines, List.flatMap_map]
    rfl
  have hfirst : Draft.addLine {} [] = .ok {} := rfl
  rw [htext, parse_braced blank_nil (blank_singleton (by decide)) blank_nil, lines, if_pos rfl,
    lines_flatMap _ (List.forall_mem_map.2 h), Draft.addLines, hfirst]
  dsimp only
  rw [Draft.addLines_append]
  -- what is left is the empty line in front of the closing brace
  cases Draft.addLines {} (1 + 1) (ls.map String.toList) <;> rfl

/-- Lines without line feeds stay so if there are fewer of them. -/
theorem newline_not_mem_of_isPrefix {ls' : List String} (h : ∀ l ∈ ls, '\n' ∉ l.toList)
    (hstart : ls' <+: ls) : ∀ l ∈ ls', '\n' ∉ l.toList :=
  fun l hl ↦ h l (hstart.subset hl)

/-- **What is reported for the first lines is reported for all of them.** -/
theorem parse_textOfLines_of_isPrefix {ls' : List String} {e : ParseError}
    (h : ∀ l ∈ ls, '\n' ∉ l.toList) (hstart : ls' <+: ls)
    (he : parse (textOfLines ls') = .error e) : parse (textOfLines ls) = .error e := by
  rw [parse_textOfLines (newline_not_mem_of_isPrefix h hstart)] at he
  obtain ⟨rest, rfl⟩ := hstart
  rw [parse_textOfLines h, List.map_append, Draft.addLines_append]
  cases hadd : Draft.addLines {} 2 (ls'.map String.toList) with
  | error e' =>
    rw [hadd] at he
    exact he
  | ok d =>
    rw [hadd] at he
    cases he

/-- The first lines that are not accepted end with the line the fault is in. -/
theorem exists_of_isLeast {k : Nat} (h : ∀ l ∈ ls, '\n' ∉ l.toList)
    (hk : IsLeast {k | ∃ e, parse (textOfLines (ls.take k)) = .error e} k) :
    ∃ fault, parse (textOfLines (ls.take k)) = .error (.line (k + 1) fault) := by
  have htake (n : Nat) : parse (textOfLines (ls.take n)) =
      (Draft.addLines {} 2 ((ls.map String.toList).take n)).map Draft.pattern := by
    rw [parse_textOfLines (newline_not_mem_of_isPrefix h (List.take_prefix n ls)), List.map_take]
  obtain ⟨⟨e, he⟩, hleast⟩ := hk
  rw [htake] at he
  cases hadd : Draft.addLines {} 2 ((ls.map String.toList).take k) with
  | ok d =>
    rw [hadd] at he
    cases he
  | error e' =>
    obtain ⟨n, hn, hfault, fault, rfl⟩ := Draft.exists_of_addLines_eq_error hadd
    have hlt : n < k := Nat.lt_of_lt_of_le hn (List.length_take_le _ _)
    rw [List.take_take, Nat.min_eq_left hlt] at hfault
    -- the lines up to the fault are not accepted, so there are no fewer than `k` of them
    have hle : k ≤ n + 1 := hleast ⟨_, by rw [htake, hfault]; rfl⟩
    obtain rfl : k = n + 1 := Nat.le_antisymm hle hlt
    refine ⟨fault, ?_⟩
    rw [htake, hfault, Nat.add_comm 2 n]
    rfl

/-- **The first bad line is named.** Lines are refused exactly if some of them from the top are
refused; and if these are as few as possible, the line that is named is the last of them, counted
from the line of the opening brace, whatever is written behind it. -/
theorem parse_textOfLines_of_isLeast (ls : List String) (h : ∀ l ∈ ls, '\n' ∉ l.toList) :
    ((∃ e, parse (textOfLines ls) = .error e) ↔
      ∃ ls', ls' <+: ls ∧ ∃ e, parse (textOfLines ls') = .error e) ∧
    ∀ k, IsLeast {k | ∃ e, parse (textOfLines (ls.take k)) = .error e} k →
      ∃ fault, parse (textOfLines (ls.take k)) = .error (.line (k + 1) fault) ∧
        parse (textOfLines ls) = .error (.line (k + 1) fault) := by
  refine ⟨⟨fun hbad ↦ ⟨ls, List.prefix_rfl, hbad⟩, ?_⟩, fun k hk ↦ ?_⟩
  · rintro ⟨ls', hstart, e, he⟩
    exact ⟨e, parse_textOfLines_of_isPrefix h hstart he⟩
  · obtain ⟨fault, hfault⟩ := exists_of_isLeast h hk
    exact ⟨fault, hfault, parse_textOfLines_of_isPrefix h (List.take_prefix k ls) hfault⟩

/-- Lines of which the third one is bad because of the first one, and the fourth one is bad too. -/
def repeatedReturns : List String :=
  ["returns(\"V\")", "", "\t returns( \"I\" )", "strings(oops"]

/-- The case of a section that comes twice. -/
theorem parse_textOfLines_repeatedReturns :
    (∀ l ∈ repeatedReturns, '\n' ∉ l.toList) ∧
    IsLeast {k | ∃ e, parse (textOfLines (repeatedReturns.take k)) = .error e} 3 ∧
    ∃ fault, parse (textOfLines (repeatedReturns.take 3)) = .error (.line 4 fault) ∧
      parse (textOfLines repeatedReturns) = .error (.line 4 fault) := by
  have hnewline : ∀ l ∈ repeatedReturns, '\n' ∉ l.toList := by decide +kernel
  have hgood : ∀ k < 3, (parse (textOfLines (repeatedReturns.take k))).toBool = true := by
    decide +kernel
  have hbad : parse (textOfLines (repeatedReturns.take 3)) =
      .error (.line 4 (.duplicateSection .returns)) := by
    decide +kernel
  have hleast : IsLeast {k | ∃ e, parse (textOfLines (repeatedReturns.take k)) = .error e} 3 := by
    refine ⟨⟨_, hbad⟩, fun k hk ↦ Nat.le_of_not_lt fun hlt ↦ ?_⟩
    obtain ⟨e, he⟩ := hk
    have hok := hgood k hlt
    rw [he] at hok
    cases hok
  exact ⟨hnewline, hleast, (parse_textOfLines_of_isLeast repeatedReturns hnewline).2 3 hleast⟩

end Pattern

end MethodFingerprint
