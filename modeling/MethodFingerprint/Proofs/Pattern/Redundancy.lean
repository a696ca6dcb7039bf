import MethodFingerprint.Proofs.Pattern.Writing

/-!
# Features that do not count

The writer takes up the first return type, the first mask, the first type of a position and every
string once. So a feature is **idle** behind others if it is malformed or if one of them says
already what it is about (`Feature.IsIdleBehind`), and features of different categories do not touch
each other. `Pattern.render_ignores_idle` says what follows for the text: idle features may be left
out, and the features of different categories may be mixed in any way.

Both are proved through the readings. Readings **agree** if the writer takes the same from them
(`Pattern.Agree`), and then the same text is written. Leaving out idle features keeps agreement, by
induction on the features from the last one on (`Pattern.Thinned.agree`). For the order it is enough
that each of the questions the writer puts is about one category only (`Reading.IsAbout`).
-/

namespace MethodFingerprint

variable {α : Type} {g : Reading → Option α} {c : Category} {r : Reading} {rs rs' : List Reading}
  {f : Feature} {fs gs : List Feature}

/-! ### Questions about one category -/

namespace Reading

/-- A question that the readings of one category answer, and no others. -/
def IsAbout (g : Reading → Option α) (c : Category) : Prop :=
  ∀ r, (g r).isSome ↔ r.category = c

theorem isAbout_returnType? : IsAbout returnType? .returnType := by
  intro r
  cases r <;> simp [returnType?, category]

theorem isAbout_mask? : IsAbout mask? .accessFlags := by
  intro r
  cases r <;> simp [mask?, category]

theorem isAbout_typeAt? (index : Nat) : IsAbout (typeAt? index) (.parameter index) := by
  intro r
  cases r <;> simp [typeAt?, category]

theorem isAbout_literal? : IsAbout literal? .strings := by
  intro r
  cases r <;> simp [literal?, category]

/-- A reading is **settled** by others if one of them is of its category and, as there may be many
strings, gives the same string if it gives one. -/
def IsSettledBy (r : Reading) (rs : List Reading) : Prop :=
  ∃ r' ∈ rs, r'.category = r.category ∧ (r.category = .strings → r' = r)

/-- **A settled reading is not the first answer** to a question about its category. -/
theorem IsAbout.findSome?_concat (hg : IsAbout g c) (hr : r.IsSettledBy rs) :
    (rs ++ [r]).findSome? g = rs.findSome? g := by
  rw [List.findSome?_append, List.findSome?_singleton]
  cases hgr : g r with
  | none => rw [Option.or_none]
  | some a =>
    obtain ⟨r', hr', hcategory, -⟩ := hr
    have hc : r.category = c := (hg r).1 (Option.isSome_of_eq_some hgr)
    have hanswer : (g r').isSome := (hg r').2 (hcategory.trans hc)
    exact Option.or_eq_left_of_isSome (List.findSome?_isSome_iff.2 ⟨r', hr', hanswer⟩)

/-- **The answers to a question depend on the readings of its category alone.** -/
theorem IsAbout.filterMap_eq (hg : IsAbout g c)
    (h : rs.filter (·.category = c) = rs'.filter (·.category = c)) :
    rs.filterMap g = rs'.filterMap g := by
  have hfilter (rs : List Reading) : rs.filterMap g = (rs.filter (·.category = c)).filterMap g := by
    rw [List.filterMap_filter]
    refine List.filterMap_congr fun r _ ↦ ?_
    by_cases hc : r.category = c
    · simp [hc]
    · have hnone : g r = none := Option.not_isSome_iff_eq_none.1 (mt (hg r).1 hc)
      simp [hc, hnone]
  rw [hfilter rs, hfilter rs', h]

end Reading

/-! ### Readings that agree -/

namespace Pattern

/-- Readings **agree** with others if the writer takes the same from both. -/
structure Agree (rs rs' : List Reading) : Prop where
  returnType_eq : rs.findSome? Reading.returnType? = rs'.findSome? Reading.returnType?
  mask_eq : rs.findSome? Reading.mask? = rs'.findSome? Reading.mask?
  typeAt_eq : ∀ i, rs.findSome? (Reading.typeAt? i) = rs'.findSome? (Reading.typeAt? i)
  literals_eq :
    (rs.filterMap Reading.literal?).eraseDups = (rs'.filterMap Reading.literal?).eraseDups

namespace Agree

/-- One reading more on both sides. -/
theorem concat (h : Agree rs rs') (r : Reading) : Agree (rs ++ [r]) (rs' ++ [r]) where
  returnType_eq := by rw [List.findSome?_append, h.returnType_eq, List.findSome?_append]
  mask_eq := by rw [List.findSome?_append, h.mask_eq, List.findSome?_append]
  typeAt_eq i := by rw [List.findSome?_append, h.typeAt_eq, List.findSome?_append]
  literals_eq := by
    rw [List.filterMap_append, List.filterMap_append]
    cases hl : r.literal? with
    | none => simpa [hl] using h.literals_eq
    | some l =>
      have hone : [r].filterMap Reading.literal? = [l] := by simp [hl]
      rw [hone, eraseDups_concat, eraseDups_concat, h.literals_eq]

/-- **A settled reading on one side.** -/
theorem concat_of_isSettledBy (h : Agree rs rs') (hr : r.IsSettledBy rs) :
    Agree (rs ++ [r]) rs' where
  returnType_eq := (Reading.isAbout_returnType?.findSome?_concat hr).trans h.returnType_eq
  mask_eq := (Reading.isAbout_mask?.findSome?_concat hr).trans h.mask_eq
  typeAt_eq i := ((Reading.isAbout_typeAt? i).findSome?_concat hr).trans (h.typeAt_eq i)
  literals_eq := by
    rw [← h.literals_eq, List.filterMap_append]
    cases hl : r.literal? with
    | none => simp [hl]
    | some l =>
      -- the string has been given before
      obtain rfl := Reading.literal?_eq_some_iff.1 hl
      obtain ⟨r', hr', -, hsame⟩ := hr
      have hmem : l ∈ rs.filterMap Reading.literal? :=
        List.mem_filterMap.2 ⟨r', hr', hsame rfl ▸ hl⟩
      have hone : [Reading.string l].filterMap Reading.literal? = [l] := by simp [hl]
      rw [hone, eraseDups_concat, if_pos (List.mem_eraseDups.2 hmem)]

/-- **Readings agree if they are the same in every category.** -/
theorem of_filter_eq
    (h : ∀ c : Category, rs.filter (·.category = c) = rs'.filter (·.category = c)) :
    Agree rs rs' where
  returnType_eq := by
    rw [← List.head?_filterMap, Reading.isAbout_returnType?.filterMap_eq (h _),
      List.head?_filterMap]
  mask_eq := by
    rw [← List.head?_filterMap, Reading.isAbout_mask?.filterMap_eq (h _), List.head?_filterMap]
  typeAt_eq i := by
    rw [← List.head?_filterMap, (Reading.isAbout_typeAt? i).filterMap_eq (h _),
      List.head?_filterMap]
  literals_eq := by rw [Reading.isAbout_literal?.filterMap_eq (h _)]

/-- The positions that are named can be told from the types they have. -/
theorem mem_filterMap_index?_iff {i : Nat} : i ∈ rs.filterMap Reading.index? ↔
    (rs.findSome? (Reading.typeAt? i)).isSome := by
  rw [List.mem_filterMap, List.findSome?_isSome_iff]
  refine exists_congr fun r ↦ and_congr_right fun _ ↦ ?_
  rw [Reading.isAbout_typeAt? i r]
  cases r <;> simp [Reading.index?, Reading.category]

/-- **If readings agree, the same pattern is read back.** -/
theorem ofReadings_eq (h : Agree rs rs') (parameterCount : Option Nat) :
    ofReadings parameterCount rs = ofReadings parameterCount rs' := by
  have hmax : (rs.filterMap Reading.index?).max? = (rs'.filterMap Reading.index?).max? :=
    max?_eq_max? fun i ↦ by
      rw [mem_filterMap_index?_iff, mem_filterMap_index?_iff, h.typeAt_eq]
  simp only [ofReadings, h.returnType_eq, h.mask_eq, h.typeAt_eq, h.literals_eq, hmax]

/-- **If readings agree, the same is written.** -/
theorem render_eq (h : Agree (readings fs) (readings gs)) (parameterCount : Option Nat) :
    (render parameterCount fs).text = (render parameterCount gs).text ∧
      (render parameterCount fs).omittedAccessFlags =
        (render parameterCount gs).omittedAccessFlags := by
  rw [text_render, text_render, h.ofReadings_eq, omittedAccessFlags_render,
    omittedAccessFlags_render, h.mask_eq]
  exact ⟨rfl, rfl⟩

end Agree

end Pattern

/-! ### Features -/

/-- The category of a well-formed feature. -/
def Feature.category? (f : Feature) : Option Category :=
  f.read.toOption.map Reading.category

/-- A feature is **idle** behind others if it is malformed or one of them has given what it is about
already: a return type, a mask, a type of the same position or the same string. -/
inductive Feature.IsIdleBehind (before : List Feature) (f : Feature) : Prop
  | malformed {m : Malformed} (h : f.read = .error m)
  | returnType {type type' : String} {g : Feature} (h : f.read = .ok (.returnType type))
      (hg : g ∈ before) (hread : g.read = .ok (.returnType type'))
  | accessFlags {mask mask' : UInt32} {g : Feature} (h : f.read = .ok (.accessFlags mask))
      (hg : g ∈ before) (hread : g.read = .ok (.accessFlags mask'))
  | parameter {index : Nat} {type type' : String} {g : Feature}
      (h : f.read = .ok (.parameter index type)) (hg : g ∈ before)
      (hread : g.read = .ok (.parameter index type'))
  | string {literal : String} {g : Feature} (h : f.read = .ok (.string literal)) (hg : g ∈ before)
      (hread : g.read = .ok (.string literal))

/-- An idle feature is malformed or settled by those before it. -/
theorem Feature.IsIdleBehind.cases (h : f.IsIdleBehind fs) :
    (∃ m, f.read = .error m) ∨ ∃ r, f.read = .ok r ∧ r.IsSettledBy (readings fs) := by
  cases h with
  | malformed h => exact Or.inl ⟨_, h⟩
  | returnType h hg hread =>
    exact Or.inr ⟨_, h, _, mem_readings.2 ⟨_, hg, hread⟩, rfl, fun hc ↦ by cases hc⟩
  | accessFlags h hg hread =>
    exact Or.inr ⟨_, h, _, mem_readings.2 ⟨_, hg, hread⟩, rfl, fun hc ↦ by cases hc⟩
  | parameter h hg hread =>
    exact Or.inr ⟨_, h, _, mem_readings.2 ⟨_, hg, hread⟩, rfl, fun hc ↦ by cases hc⟩
  | string h hg hread => exact Or.inr ⟨_, h, _, mem_readings.2 ⟨_, hg, hread⟩, rfl, fun _ ↦ rfl⟩

/-- A malformed feature says nothing. -/
theorem readings_concat_of_error {m : Malformed} (h : f.read = .error m) (fs : List Feature) :
    readings (fs ++ [f]) = readings fs := by
  simp [readings, h, Except.toOption]

theorem readings_concat_of_ok (h : f.read = .ok r) (fs : List Feature) :
    readings (fs ++ [f]) = readings fs ++ [r] := by
  simp [readings, h, Except.toOption]

/-- The readings of a category are those of the features of this category. -/
theorem filter_readings (c : Category) (fs : List Feature) :
    (readings fs).filter (·.category = c) = readings (fs.filter (·.category? = some c)) := by
  rw [readings, readings, List.filter_filterMap, List.filterMap_filter]
  refine List.filterMap_congr fun f _ ↦ ?_
  cases h : f.read with
  | error m => simp [Feature.category?, h, Except.toOption]
  | ok r => by_cases hc : r.category = c <;> simp [Feature.category?, h, Except.toOption, hc]

namespace Pattern

/-- Features **thinned** out: a feature is left out only if it is idle behind the features before
it, of which some may have been left out in turn. -/
inductive Thinned : List Feature → List Feature → Prop
  | nil : Thinned [] []
  | keep {fs gs : List Feature} (f : Feature) (h : Thinned fs gs) : Thinned (fs ++ [f]) (gs ++ [f])
  | drop {fs gs : List Feature} {f : Feature} (hf : f.IsIdleBehind fs) (h : Thinned fs gs) :
    Thinned (fs ++ [f]) gs

/-- **Features that are thinned out agree with what they were.** -/
theorem Thinned.agree (h : Thinned fs gs) : Agree (readings fs) (readings gs) := by
  induction h with
  | nil => exact ⟨rfl, rfl, fun _ ↦ rfl, rfl⟩
  | keep f _ ih =>
    cases hread : f.read with
    | error m => rwa [readings_concat_of_error hread, readings_concat_of_error hread]
    | ok r =>
      rw [readings_concat_of_ok hread, readings_concat_of_ok hread]
      exact ih.concat r
  | drop hf _ ih =>
    rcases hf.cases with ⟨m, hread⟩ | ⟨r, hread, hsettled⟩
    · rwa [readings_concat_of_error hread]
    · rw [readings_concat_of_ok hread]
      exact ih.concat_of_isSettledBy hsettled

/-- **Idle features do not count, and neither does the order of the categories.** What is reported
as skipped are the malformed features with what is wrong with them, one by one. The text and the
bits that are left out stay the same if idle features are missing, and if the features of each
category are given in the same order, wherever those of the other categories and the malformed ones
stand. -/
theorem render_ignores_idle (parameterCount : Option Nat) (features : List Feature) :
    (render parameterCount features).skipped = features.filterMap (fun f ↦
      match f.read with
      | .error m => some m
      | .ok _ => none) ∧
    (∀ fs, Thinned features fs →
      (render parameterCount fs).text = (render parameterCount features).text ∧
      (render parameterCount fs).omittedAccessFlags =
        (render parameterCount features).omittedAccessFlags) ∧
    ∀ fs : List Feature,
      (∀ c : Category,
        fs.filter (·.category? = some c) = features.filter (·.category? = some c)) →
      (render parameterCount fs).text = (render parameterCount features).text ∧
      (render parameterCount fs).omittedAccessFlags =
        (render parameterCount features).omittedAccessFlags := by
  refine ⟨skipped_render parameterCount features, fun fs h ↦ ?_, fun fs h ↦ ?_⟩
  · obtain ⟨htext, homitted⟩ := h.agree.render_eq parameterCount
    exact ⟨htext.symm, homitted.symm⟩
  · refine (Agree.of_filter_eq fun c ↦ ?_).render_eq parameterCount
    rw [filter_readings, filter_readings, h]

/-- Features of which the first is malformed and the last two say nothing new. -/
def repetitiveFeatures : List Feature :=
  [⟨"nonsense"⟩, .string "a", .returnType "V", .returnType "I", .string "a"]

/-- The case of features of which the idle ones are left out, and which are put in another order. -/
theorem render_ignores_idle_repetitiveFeatures :
    Thinned repetitiveFeatures [.string "a", .returnType "V"] ∧
    (render none [.string "a", .returnType "V"]).text = (render none repetitiveFeatures).text ∧
    (∀ c : Category,
      [.returnType "V", .returnType "I", .string "a", ⟨"nonsense"⟩, .string "a"].filter
          (·.category? = some c) =
        repetitiveFeatures.filter (·.category? = some c)) ∧
    (render none
        [.returnType "V", .returnType "I", .string "a", ⟨"nonsense"⟩, .string "a"]).text =
      (render none repetitiveFeatures).text := by
  have hmalformed : (⟨"nonsense"⟩ : Feature).read = .error ⟨"nonsense", .missingSeparator⟩ := by
    decide
  have hstring := Feature.read_string "a"
  have htype (type : String) := Feature.read_returnType type
  have hthinned : Thinned repetitiveFeatures [.string "a", .returnType "V"] := by
    have h₀ := Thinned.nil.drop (.malformed hmalformed)
    have h₂ := (h₀.keep (.string "a")).keep (.returnType "V")
    have h₃ := h₂.drop (.returnType (htype "I") (by simp) (htype "V"))
    exact h₃.drop (.string hstring (by simp) hstring)
  have horder : ∀ c : Category,
      [.returnType "V", .returnType "I", .string "a", ⟨"nonsense"⟩, .string "a"].filter
          (·.category? = some c) =
        repetitiveFeatures.filter (·.category? = some c) := by
    intro c
    cases c <;>
      simp [repetitiveFeatures, Feature.category?, hmalformed, hstring, htype, Except.toOption,
        Reading.category]
  obtain ⟨-, hidle, hmixed⟩ := render_ignores_idle none repetitiveFeatures
  exact ⟨hthinned, (hidle _ hthinned).1, horder, (hmixed _ horder).1⟩

end Pattern

end MethodFingerprint
