import MethodFingerprint.Proofs.Pattern.Sections
import Mathlib.Data.List.Induction

/-!
# Patterns are read exactly as the grammar has them

A text is read as a pattern if and only if it derives that pattern (`Pattern.parse_eq_ok_iff`):
every text the grammar allows is read, with the meaning the grammar gives it, and nothing else is.

What one line does is known; the lines of a body are gone through one after the other. They are
accepted exactly if they make statements of kinds that differ from each other and from those made
before (`Pattern.Draft.Admits`), and the draft they lead to is the one with these statements put in
(`Pattern.Draft.addLines_eq_ok_iff`). Such a draft **records** the statements: it holds what they
say and nothing else (`Pattern.Draft.Records`). A statement of a new kind keeps this up, which is
the invariant behind `Pattern.Draft.records_foldl`. What is recorded does not depend on the order of
the statements, and so the pattern does not either.
-/

namespace MethodFingerprint

open Text

namespace Pattern

variable {d d' : Draft} {sts : List Statement} {st : Statement} {p : Pattern}

namespace Draft

/-! ### Adding lines -/

/-- A draft **admits** statements if their kinds differ from each other and it has been told nothing
by sections of these kinds. -/
def Admits (d : Draft) (sts : List Statement) : Prop :=
  (sts.map Statement.kind).Nodup ∧ ∀ st ∈ sts, d.has st.kind = false

/-- A statement is one more thing that a draft has been told. -/
theorem has_put_eq_false_iff {kind : Section} :
    (d.put st).has kind = false ↔ kind ≠ st.kind ∧ d.has kind = false := by
  cases st <;> cases kind <;> simp [has, put, Statement.kind]

/-- **Statements are admitted one at a time.** -/
theorem admits_cons_iff :
    d.Admits (st :: sts) ↔ d.has st.kind = false ∧ (d.put st).Admits sts := by
  unfold Admits
  rw [List.map_cons, List.nodup_cons, List.forall_mem_cons]
  constructor
  · rintro ⟨⟨hnew, hnodup⟩, hfree, hrest⟩
    refine ⟨hfree, hnodup, fun s hs ↦ has_put_eq_false_iff.2 ⟨fun heq ↦ hnew ?_, hrest s hs⟩⟩
    rw [← heq]
    exact List.mem_map_of_mem hs
  · rintro ⟨hfree, hnodup, hrest⟩
    refine ⟨⟨fun hmem ↦ ?_, hnodup⟩, hfree, fun s hs ↦ (has_put_eq_false_iff.1 (hrest s hs)).2⟩
    obtain ⟨s, hs, heq⟩ := List.mem_map.1 hmem
    exact (has_put_eq_false_iff.1 (hrest s hs)).1 heq

/-- **Lines are added exactly if they make statements that are admitted**, by induction on the
lines. -/
theorem addLines_eq_ok_iff {number : Nat} {ls : List (List Char)} :
    d.addLines number ls = .ok d' ↔
      ∃ sts, LinesSay ls sts ∧ d.Admits sts ∧ d' = sts.foldl put d := by
  induction ls generalizing d number with
  | nil =>
    rw [addLines, Except.ok.injEq]
    constructor
    · rintro rfl
      exact ⟨[], .nil, ⟨List.nodup_nil, fun _ hst ↦ absurd hst List.not_mem_nil⟩, rfl⟩
    · rintro ⟨sts, hlines, -, rfl⟩
      cases hlines
      rfl
  | cons line ls ih =>
    constructor
    · intro h
      rw [addLines] at h
      cases hline : d.addLine line with
      | error fault =>
        rw [hline] at h
        cases h
      | ok d₁ =>
        rw [hline] at h
        obtain ⟨sts, hlines, hadmits, rfl⟩ := ih.1 h
        rcases addLine_cases hline with ⟨hblank, rfl⟩ | ⟨st, hst, hfree, rfl⟩
        · exact ⟨sts, .blank hblank hlines, hadmits, rfl⟩
        · exact ⟨st :: sts, .statement hst hlines, admits_cons_iff.2 ⟨hfree, hadmits⟩, rfl⟩
    · rintro ⟨sts, hlines, hadmits, rfl⟩
      cases hlines with
      | blank hblank hlines =>
        rw [addLines, addLine_of_blank d hblank]
        exact ih.2 ⟨sts, hlines, hadmits, rfl⟩
      | statement hst hlines =>
        obtain ⟨hfree, hadmits⟩ := admits_cons_iff.1 hadmits
        rw [addLines, addLine_of_lineSays hst hfree]
        exact ih.2 ⟨_, hlines, hadmits, rfl⟩

/-! ### What a draft records -/

/-- A draft **records** statements if it holds what is stated and nothing else. -/
structure Records (d : Draft) (sts : List Statement) : Prop where
  returnType_iff : ∀ type, d.returnType = some type ↔ .returns type ∈ sts
  accessFlags_iff : ∀ mask, d.accessFlags = some mask ↔
    ∃ flags, .accessFlags flags ∈ sts ∧ mask = AccessFlag.encode flags
  parameters_iff : ∀ slots, d.parameters = some slots ↔
    ∃ types, .parameters types ∈ sts ∧ slots = types.map slotOfType
  strings_iff : ∀ values, d.strings = some values ↔ .strings values ∈ sts

/-- **A statement of a new kind is recorded** beside the others. -/
theorem Records.put (h : d.Records sts) (hnew : st.kind ∉ sts.map Statement.kind) :
    (d.put st).Records (sts ++ [st]) := by
  -- nothing of its kind has been stated before, and statements of other kinds are left alone
  have hother (st' : Statement) (hkind : st'.kind = st.kind) : st' ∉ sts := fun hmem ↦
    hnew (hkind ▸ List.mem_map_of_mem hmem)
  cases st with
  | returns type =>
    have hnone (t : String) := hother (.returns t) rfl
    constructor
    · simp [Draft.put, hnone, eq_comm]
    · simpa [Draft.put] using h.accessFlags_iff
    · simpa [Draft.put] using h.parameters_iff
    · simpa [Draft.put] using h.strings_iff
  | accessFlags flags =>
    have hnone (fs : List AccessFlag) := hother (.accessFlags fs) rfl
    constructor
    · simpa [Draft.put] using h.returnType_iff
    · simp [Draft.put, hnone, eq_comm]
    · simpa [Draft.put] using h.parameters_iff
    · simpa [Draft.put] using h.strings_iff
  | parameters types =>
    have hnone (ts : List String) := hother (.parameters ts) rfl
    constructor
    · simpa [Draft.put] using h.returnType_iff
    · simpa [Draft.put] using h.accessFlags_iff
    · simp [Draft.put, hnone, eq_comm]
    · simpa [Draft.put] using h.strings_iff
  | strings values =>
    have hnone (vs : List String) := hother (.strings vs) rfl
    constructor
    · simpa [Draft.put] using h.returnType_iff
    · simpa [Draft.put] using h.accessFlags_iff
    · simpa [Draft.put] using h.parameters_iff
    · simp [Draft.put, hnone, eq_comm]

/-- **Statements of different kinds are all recorded**, by induction from the last of them. -/
theorem records_foldl (h : (sts.map Statement.kind).Nodup) :
    (sts.foldl put {}).Records sts := by
  induction sts using List.reverseRecOn with
  | nil => constructor <;> simp
  | append_singleton sts st ih =>
    rw [List.map_append, List.map_singleton] at h
    rw [List.foldl_append]
    obtain ⟨hnodup, -, hdisjoint⟩ := List.nodup_append.1 h
    exact (ih hnodup).put fun hmem ↦ hdisjoint _ hmem _ (List.mem_singleton_self _) rfl

/-- **The pattern of a draft is what the recorded statements say**, and no other is. -/
theorem Records.denotes_iff (h : d.Records sts) : Denotes sts p ↔ p = d.pattern := by
  constructor
  · intro hp
    have hreturnType : p.returnType = d.returnType :=
      Option.ext fun type ↦ (hp.returnType_iff type).trans (h.returnType_iff type).symm
    have haccessFlags : p.accessFlags = d.accessFlags :=
      Option.ext fun mask ↦ (hp.accessFlags_iff mask).trans (h.accessFlags_iff mask).symm
    have hparameters : p.parameters = d.parameters :=
      Option.ext fun slots ↦ (hp.parameters_iff slots).trans (h.parameters_iff slots).symm
    have hstrings : p.strings = d.strings.getD [] := by
      cases hvalues : d.strings with
      | none =>
        refine hp.strings_of_not_mem fun values hmem ↦ ?_
        rw [(h.strings_iff values).2 hmem] at hvalues
        cases hvalues
      | some values => exact hp.strings_of_mem values ((h.strings_iff values).1 hvalues)
    cases p
    rw [pattern, ← hreturnType, ← haccessFlags, ← hparameters, ← hstrings]
  · rintro rfl
    refine ⟨h.returnType_iff, h.accessFlags_iff, h.parameters_iff, fun values hmem ↦ ?_,
      fun hnone ↦ ?_⟩
    · rw [pattern, (h.strings_iff values).2 hmem, Option.getD_some]
    · cases hvalues : d.strings with
      | none => rw [pattern, hvalues, Option.getD_none]
      | some values => exact absurd ((h.strings_iff values).1 hvalues) (hnone values)

end Draft

/-! ### Whole texts -/

variable {text b before gap after : List Char}

/-- **The body of a text** is what stands in braces behind the header, with blanks around both. -/
theorem body_eq_ok_iff : body text = .ok b ↔ ∃ before gap after, Blank before ∧ Blank gap ∧
    Blank after ∧ text = before ++ "fingerprint".toList ++ gap ++ '{' :: b ++ '}' :: after := by
  constructor
  · intro h
    obtain ⟨before, after, hbefore, hafter, htext⟩ := exists_eq_blank_trim_blank text
    rw [body] at h
    generalize hrest : ((afterHead? header (trim text)).bind fun rest ↦
      afterHead? ['{'] (trimStart rest)) = o at h
    cases o with
    | none => cases h
    | some rest =>
      obtain ⟨behind, hheader, hbrace⟩ := Option.bind_eq_some_iff.1 hrest
      rw [afterHead?_eq_some] at hheader hbrace
      obtain ⟨gap, hgap, hbehind⟩ := exists_eq_blank_trimStart behind
      obtain ⟨blanks, hblanks, hend⟩ := exists_eq_trimEnd_blank rest
      dsimp only at h
      generalize hlast : beforeLast? '}' (trimEnd rest) = o at h
      cases o with
      | none => cases h
      | some inner =>
        obtain rfl : inner = b := Except.ok.inj h
        rw [beforeLast?_eq_some_iff.1 hlast] at hend
        have hparts : text =
            before ++ header ++ gap ++ '{' :: inner ++ '}' :: (blanks ++ after) := by
          rw [htext, hheader, hbehind, hbrace, hend]
          simp
        exact ⟨before, gap, blanks ++ after, hbefore, hgap, hblanks.append hafter, hparts⟩
  · rintro ⟨before, gap, after, hbefore, hgap, hafter, rfl⟩
    show body (before ++ header ++ gap ++ '{' :: b ++ '}' :: after) = .ok b
    obtain ⟨c, cs, hheader, hc⟩ : ∃ c cs, header = c :: cs ∧ isBlank c = false :=
      ⟨'f', "ingerprint".toList, rfl, by decide⟩
    -- the text is blanks around a text between a letter and a brace
    have htext : before ++ header ++ gap ++ '{' :: b ++ '}' :: after =
        before ++ (c :: (cs ++ gap ++ '{' :: b) ++ ['}']) ++ after := by
      rw [hheader]
      simp
    have htrim : trim (before ++ header ++ gap ++ '{' :: b ++ '}' :: after) =
        header ++ (gap ++ '{' :: (b ++ ['}'])) := by
      rw [htext, trim_blank_cons_concat_blank hbefore hafter hc (by decide), hheader]
      simp
    have hbrace : trimStart (gap ++ '{' :: (b ++ ['}'])) = ['{'] ++ (b ++ ['}']) := by
      rw [trimStart_append hgap, trimStart_cons (by decide)]
      rfl
    rw [body, htrim, afterHead?_append, Option.bind_some, hbrace, afterHead?_append]
    dsimp only
    rw [trimEnd_concat (by decide), beforeLast?_concat]

/-- **A text is read as a pattern exactly if it derives the pattern.** -/
theorem parse_eq_ok_iff (text : String) (p : Pattern) :
    parse text = .ok p ↔ Derives text.toList p := by
  rw [parse, parseChars]
  constructor
  · intro h
    split at h
    · cases h
    · rename_i b hbody
      obtain ⟨before, gap, after, hbefore, hgap, hafter, htext⟩ := body_eq_ok_iff.1 hbody
      obtain ⟨d, hadd, rfl⟩ := map_eq_ok_iff.1 h
      obtain ⟨sts, hlines, hadmits, rfl⟩ := Draft.addLines_eq_ok_iff.1 hadd
      rw [lines_eq_splitOn] at hlines
      rw [htext]
      exact .intro hbefore hgap hafter hlines hadmits.1
        ((Draft.records_foldl hadmits.1).denotes_iff.2 rfl)
  · intro h
    generalize text.toList = chars at h ⊢
    obtain ⟨hbefore, hgap, hafter, hlines, hkinds, hdenotes⟩ := h
    rw [← lines_eq_splitOn] at hlines
    -- nothing has been said at first, so statements of different kinds are admitted
    have hadmits : Draft.Admits {} _ := ⟨hkinds, fun st _ ↦ by cases st <;> rfl⟩
    rw [body_eq_ok_iff.2 ⟨_, _, _, hbefore, hgap, hafter, rfl⟩]
    dsimp only
    rw [Draft.addLines_eq_ok_iff.2 ⟨_, hlines, hadmits, rfl⟩,
      (Draft.records_foldl hkinds).denotes_iff.1 hdenotes]
    rfl

end Pattern

end MethodFingerprint
