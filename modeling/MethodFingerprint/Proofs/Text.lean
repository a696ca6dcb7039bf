import MethodFingerprint.Text.Blank
import Mathlib.Data.List.TakeWhile

/-!
# Trimming and cutting

Trimming takes the blanks off both ends of a text and nothing else, and a line ends at its first
line feed. The lemmas are stated for texts that are put together from parts, as a writer makes them,
and say what the reader finds; in the other direction, a text is the blanks it was rid of around
what is left (`exists_eq_blank_trim_blank`).
-/

namespace MethodFingerprint.Text

variable {c d : Char} {s before after rest : List Char}

/-! ### Trimming -/

/-- A text of nothing but blanks. -/
def Blank (s : List Char) : Prop := ∀ c ∈ s, isBlank c = true

theorem blank_nil : Blank [] :=
  fun _ hc ↦ absurd hc List.not_mem_nil

theorem blank_singleton (hc : isBlank c = true) : Blank [c] :=
  List.forall_mem_singleton.2 hc

theorem Blank.append (hs : Blank s) (hrest : Blank rest) : Blank (s ++ rest) :=
  List.forall_mem_append.2 ⟨hs, hrest⟩

/-- A text that starts with a letter stays as it is. -/
theorem trimStart_cons (hc : isBlank c = false) : trimStart (c :: s) = c :: s :=
  List.dropWhile_cons_of_neg (by simp [hc])

/-- A text that ends with a letter stays as it is. -/
theorem trimEnd_concat (hd : isBlank d = false) : trimEnd (s ++ [d]) = s ++ [d] := by
  rw [trimEnd, List.reverse_append, List.reverse_singleton, List.singleton_append,
    List.dropWhile_cons_of_neg (by simp [hd]), List.reverse_cons, List.reverse_reverse]

/-- All blanks in front of a text are dropped. -/
theorem trimStart_append (h : Blank before) : trimStart (before ++ s) = trimStart s :=
  List.dropWhile_append_of_pos h

/-- All blanks behind a text are dropped. -/
theorem trimEnd_append (h : Blank after) : trimEnd (s ++ after) = trimEnd s := by
  have hreverse : ∀ c ∈ after.reverse, isBlank c = true := fun c hc ↦ h c (List.mem_reverse.1 hc)
  rw [trimEnd, trimEnd, List.reverse_append, List.dropWhile_append_of_pos hreverse]

/-- Nothing is left of blanks, and of nothing else. -/
theorem trimStart_eq_nil_iff : trimStart s = [] ↔ Blank s :=
  List.dropWhile_eq_nil_iff

/-- A text is the blanks it starts with in front of what is left without them. -/
theorem exists_eq_blank_trimStart (s : List Char) :
    ∃ before, Blank before ∧ s = before ++ trimStart s :=
  ⟨s.takeWhile isBlank, fun _ ↦ List.mem_takeWhile_imp, List.takeWhile_append_dropWhile.symm⟩

/-- A text is what is left without the blanks it ends with in front of them. -/
theorem exists_eq_trimEnd_blank (s : List Char) :
    ∃ after, Blank after ∧ s = trimEnd s ++ after := by
  obtain ⟨before, hbefore, heq⟩ := exists_eq_blank_trimStart s.reverse
  refine ⟨before.reverse, fun c hc ↦ hbefore c (List.mem_reverse.1 hc), ?_⟩
  have hreverse := congrArg List.reverse heq
  rwa [List.reverse_reverse, List.reverse_append] at hreverse

/-- **A text is what trimming leaves with blanks around it.** -/
theorem exists_eq_blank_trim_blank (s : List Char) :
    ∃ before after, Blank before ∧ Blank after ∧ s = before ++ trim s ++ after := by
  obtain ⟨before, hbefore, hs⟩ := exists_eq_blank_trimStart s
  obtain ⟨after, hafter, hstart⟩ := exists_eq_trimEnd_blank (trimStart s)
  refine ⟨before, after, hbefore, hafter, ?_⟩
  rw [trim, List.append_assoc, ← hstart]
  exact hs

/-- **Blanks around a text between letters are all that is trimmed.** -/
theorem trim_blank_cons_concat_blank (hbefore : Blank before) (hafter : Blank after)
    (hc : isBlank c = false) (hd : isBlank d = false) :
    trim (before ++ (c :: s ++ [d]) ++ after) = c :: s ++ [d] := by
  rw [trim, List.append_assoc, trimStart_append hbefore, List.cons_append, List.cons_append,
    trimStart_cons hc, ← List.cons_append, trimEnd_append hafter, ← List.cons_append,
    trimEnd_concat hd]

/-- Trimming leaves nothing of blanks, and of nothing else. -/
theorem trim_eq_nil_iff : trim s = [] ↔ Blank s := by
  constructor
  · intro hnil
    obtain ⟨before, after, hbefore, hafter, hs⟩ := exists_eq_blank_trim_blank s
    rw [hnil, List.append_nil] at hs
    rw [hs]
    exact hbefore.append hafter
  · intro hblank
    rw [trim, trimStart_eq_nil_iff.2 hblank, trimEnd_nil]

/-! ### Cutting -/

/-- A text that ends with a character is what precedes it. -/
@[simp] theorem beforeLast?_concat (c : Char) (s : List Char) :
    beforeLast? c (s ++ [c]) = some s := by
  rw [beforeLast?, if_pos List.getLast?_concat, List.dropLast_concat]

/-- What follows a head. -/
@[simp] theorem afterHead?_append (head rest : List Char) :
    afterHead? head (head ++ rest) = some rest :=
  afterHead?_eq_some.2 rfl

/-- **A line goes to the first line feed.** -/
theorem lines_append_cons (h : '\n' ∉ s) : lines (s ++ '\n' :: rest) = s :: lines rest := by
  induction s with
  | nil => rfl
  | cons c s ih =>
    have hc : c ≠ '\n' := fun heq ↦ h (heq ▸ List.mem_cons_self)
    rw [List.cons_append, lines, if_neg hc, ih fun hs ↦ h (List.mem_cons_of_mem c hs)]

/-- **Lines that are written one below the other are read one after the other**, the last of them
followed by an empty one. -/
theorem lines_flatMap (ls : List (List Char)) (h : ∀ l ∈ ls, '\n' ∉ l) :
    lines (ls.flatMap fun l ↦ l ++ ['\n']) = ls ++ [[]] := by
  induction ls with
  | nil => rfl
  | cons l ls ih =>
    obtain ⟨hl, hls⟩ := List.forall_mem_cons.1 h
    rw [List.flatMap_cons, List.append_assoc, List.singleton_append, lines_append_cons hl, ih hls]
    rfl

/-- **The lines of a text** are what the line feeds split it into. -/
theorem lines_eq_splitOn (s : List Char) : lines s = s.splitOn '\n' := by
  induction s with
  | nil => rfl
  | cons c s ih =>
    rw [List.splitOn] at ih ⊢
    rw [lines, List.splitOnP_cons_eq_if_modifyHead, ← ih]
    by_cases hc : c = '\n'
    · rw [if_pos hc, if_pos (beq_iff_eq.2 hc)]
    · rw [if_neg hc, if_neg (mt beq_iff_eq.1 hc)]
      obtain ⟨l, ls, hl⟩ := List.exists_cons_of_ne_nil (lines_ne_nil s)
      rw [hl]
      rfl

/-- **The lines of a text that is continued.** Only the last line goes on; all others are finished,
one for each line feed. By induction on the first part. -/
theorem exists_lines_append (s : List Char) :
    ∃ finished lead, finished.length = s.count '\n' ∧
      ∀ rest l ls, lines rest = l :: ls → lines (s ++ rest) = finished ++ (lead ++ l) :: ls := by
  induction s with
  | nil => exact ⟨[], [], rfl, fun _ _ _ h ↦ h⟩
  | cons c s ih =>
    obtain ⟨finished, lead, hlength, hlines⟩ := ih
    by_cases hc : c = '\n'
    · refine ⟨[] :: finished, lead, ?_, fun rest l ls h ↦ ?_⟩
      · rw [hc, List.count_cons_self, List.length_cons, hlength]
      · rw [List.cons_append, lines, if_pos hc, hlines rest l ls h]
        rfl
    · have hcount : (c :: s).count '\n' = s.count '\n' := List.count_cons_of_ne hc
      cases finished with
      | nil =>
        refine ⟨[], c :: lead, hlength.trans hcount.symm, fun rest l ls h ↦ ?_⟩
        rw [List.cons_append, lines, if_neg hc, hlines rest l ls h]
        rfl
      | cons first finished =>
        refine ⟨(c :: first) :: finished, lead, hlength.trans hcount.symm, fun rest l ls h ↦ ?_⟩
        rw [List.cons_append, lines, if_neg hc, hlines rest l ls h]
        rfl

/-- Lines keep their numbers if a text goes on, and lose nothing. -/
theorem exists_getElem?_lines_append {line : List Char} {k : Nat} (h : (lines s)[k]? = some line)
    (rest : List Char) : ∃ trail, (lines (s ++ rest))[k]? = some (line ++ trail) := by
  obtain ⟨finished, lead, -, hlines⟩ := exists_lines_append s
  obtain ⟨l, ls, hrest⟩ := List.exists_cons_of_ne_nil (lines_ne_nil rest)
  have hs := hlines [] [] [] rfl
  rw [List.append_nil, List.append_nil] at hs
  rw [hs] at h
  rw [hlines rest l ls hrest]
  rcases Nat.lt_or_ge k finished.length with hk | hk
  · rw [List.getElem?_append_left hk] at h ⊢
    exact ⟨[], by rw [h, List.append_nil]⟩
  · rw [List.getElem?_append_right hk] at h ⊢
    obtain ⟨hk, rfl⟩ := List.getElem?_eq_some_iff.1 h
    rw [List.length_singleton, Nat.lt_one_iff] at hk
    simp only [hk, List.getElem_cons_zero]
    exact ⟨l, rfl⟩

/-- **Lines are numbered on from the line feeds in front of them.** What stands in front of the
first one on its line is not counted. -/
theorem exists_getElem?_append_lines {line : List Char} {k : Nat}
    (h : (lines rest)[k]? = some line) (s : List Char) :
    ∃ lead, (lines (s ++ rest))[s.count '\n' + k]? = some (lead ++ line) := by
  obtain ⟨finished, lead, hlength, hlines⟩ := exists_lines_append s
  obtain ⟨l, ls, hrest⟩ := List.exists_cons_of_ne_nil (lines_ne_nil rest)
  rw [hrest] at h
  rw [hlines rest l ls hrest, ← hlength, List.getElem?_append_right (Nat.le_add_right _ _),
    Nat.add_sub_cancel_left]
  cases k with
  | zero => exact ⟨lead, congrArg some (congrArg (lead ++ ·) (Option.some.inj h))⟩
  | succ k => exact ⟨[], h⟩

/-- What precedes the last character of a text. -/
theorem beforeLast?_eq_some_iff : beforeLast? c s = some rest ↔ s = rest ++ [c] := by
  constructor
  · intro h
    unfold beforeLast? at h
    split at h
    · rename_i hlast
      obtain ⟨init, rfl⟩ := List.getLast?_eq_some_iff.1 hlast
      rw [List.dropLast_concat, Option.some.injEq] at h
      rw [h]
    · cases h
  · rintro rfl
    exact beforeLast?_concat c rest

end MethodFingerprint.Text
