import MethodFingerprint.Proofs.Feature.Extract
import MethodFingerprint.Proofs.Isolation
import Mathlib.Data.List.Dedup

/-!
# Comparing methods by their features

Methods are told apart by inclusion of their features, so features have to be included exactly
where what they say is. A token that is drawn from one method is drawn from another only if the
other says the same (`Method.Says.ofReading_mem_features_iff`), since it reads as what it was made
of. Inclusion is therefore a matter of the records, category by category
(`Settings.features_subset_iff`).

For the same reason nothing collapses but a string that is given more than once: what a method says,
each string once, is as much as there are features (`Settings.size_features`).
-/

namespace MethodFingerprint

variable {s : Settings} {m m' : Method} {r : Reading}

/-! ### Inclusion -/

/-- **A token that one method yields is drawn from another if that one says the same**, and its
category takes part. -/
theorem Method.Says.ofReading_mem_features_iff (h : m.Says r) :
    .ofReading r ∈ s.features m' ↔ m'.Says r ∧ s.uses r.category = true := by
  rw [Settings.mem_features_iff]
  constructor
  · rintro ⟨r', hsaid, huse, heq⟩
    have hread := h.read_ofReading
    rw [heq, hsaid.read_ofReading] at hread
    obtain rfl := Except.ok.inj hread
    exact ⟨hsaid, huse⟩
  · rintro ⟨hsaid, huse⟩
    exact ⟨r, hsaid, huse, rfl⟩

namespace Settings

/-- **Features are included where what is said is**, as far as its category takes part. -/
theorem features_subset_iff : s.features m ⊆ s.features m' ↔
    ∀ r, m.Says r → s.uses r.category = true → m'.Says r := by
  rw [FeatureSet.subset_def]
  constructor
  · intro h r hr huse
    exact (hr.ofReading_mem_features_iff.1 (h _ (hr.ofReading_mem_features_iff.2 ⟨hr, huse⟩))).1
  · intro h f hf
    obtain ⟨r, hr, huse, rfl⟩ := mem_features_iff.1 hf
    exact hr.ofReading_mem_features_iff.2 ⟨h r hr huse, huse⟩

/-- One method says no more than another if this holds in each category. -/
theorem forall_says_iff : (∀ r, m.Says r → s.uses r.category = true → m'.Says r) ↔
    (s.useReturnType = true → m.returnType = "" ∨ m.returnType = m'.returnType) ∧
      (s.useParameters = true → ∀ i < 255, ∀ d, m.parameters[i]? = some d → d ≠ "" →
        m'.parameters[i]? = some d) ∧
      (s.useStrings = true → ∀ l ∈ m.strings, l ∈ m'.strings) ∧
      (s.useAccessFlags = true → m.accessFlags = m'.accessFlags) := by
  constructor
  · intro h
    refine ⟨fun huse ↦ ?_, fun huse i hi d hd hne ↦ ?_, fun huse l hl ↦ h (.string l) hl huse,
      fun huse ↦ h (.accessFlags m.accessFlags) rfl huse⟩
    · exact or_iff_not_imp_left.2 fun hne ↦ (h (.returnType m.returnType) ⟨rfl, hne⟩ huse).1
    · exact (h (.parameter i d) ⟨Nat.le_of_lt_succ hi, hd, hne⟩ huse).2.1
  · rintro ⟨hreturn, hparameters, hstrings, hflags⟩ r hr huse
    cases r with
    | returnType descriptor =>
      obtain ⟨rfl, hne⟩ := hr
      exact ⟨(hreturn huse).resolve_left hne, hne⟩
    | parameter i d =>
      obtain ⟨hle, hd, hne⟩ := hr
      exact ⟨hle, hparameters huse i (Nat.lt_succ_of_le hle) d hd hne, hne⟩
    | string l => exact hstrings huse l hr
    | accessFlags mask => exact (show mask = m.accessFlags from hr).trans (hflags huse)

/-! ### Size -/

/-- What a method says in the categories that take part, everything once. -/
def said (s : Settings) (m : Method) : List Reading :=
  (if s.useReturnType ∧ m.returnType ≠ "" then [.returnType m.returnType] else []) ++
    (if s.useParameters then m.typesByPosition.map fun p ↦ .parameter p.2 p.1 else []) ++
    (if s.useStrings then m.strings.dedup.map .string else []) ++
    (if s.useAccessFlags then [.accessFlags m.accessFlags] else [])

theorem mem_said : r ∈ s.said m ↔ m.Says r ∧ s.uses r.category = true := by
  have hif {p : Prop} [Decidable p] {l : List Reading} : r ∈ (if p then l else []) ↔ p ∧ r ∈ l := by
    split <;> simp_all
  simp only [said, List.mem_append, hif, List.mem_map, Prod.exists, Method.mem_typesByPosition,
    List.mem_dedup, List.mem_singleton]
  cases r with
  | returnType descriptor =>
    simp only [Reading.returnType.injEq, reduceCtorEq, and_false, exists_false, or_false]
    constructor
    · rintro ⟨⟨huse, hne⟩, rfl⟩
      exact ⟨⟨rfl, hne⟩, huse⟩
    · rintro ⟨⟨rfl, hne⟩, huse⟩
      exact ⟨⟨huse, hne⟩, rfl⟩
  | parameter index descriptor => simp [uses, Reading.category, and_comm]
  | string literal => simp [Method.Says, uses, Reading.category, and_comm]
  | accessFlags mask => simp [Method.Says, uses, Reading.category, and_comm]

/-- **Nothing is said twice**: there is one thing to say of a position, and categories differ. -/
theorem nodup_said : (s.said m).Nodup := by
  have hparameters : (m.typesByPosition.map fun p ↦ Reading.parameter p.2 p.1).Nodup := by
    -- every position is gone through once
    have hpositions : (m.typesByPosition.map Prod.snd).Nodup := by
      refine List.Nodup.sublist (List.filter_sublist.map Prod.snd) ?_
      rw [List.zipIdx_map_snd]
      exact List.nodup_range'
    rw [List.Nodup, List.pairwise_map] at hpositions ⊢
    exact hpositions.imp fun hne heq ↦ hne (Reading.parameter.inj heq).1
  have hstrings : (m.strings.dedup.map Reading.string).Nodup :=
    m.strings.nodup_dedup.map fun l l' heq ↦ Reading.string.inj heq
  have hall : ([Reading.returnType m.returnType] ++
      (m.typesByPosition.map fun p ↦ Reading.parameter p.2 p.1) ++
      m.strings.dedup.map Reading.string ++ [Reading.accessFlags m.accessFlags]).Nodup := by
    refine (((List.nodup_singleton _).append hparameters ?_).append hstrings ?_).append
      (List.nodup_singleton _) ?_
    · simp
    · intro r hr hr'
      obtain ⟨l, -, rfl⟩ := List.mem_map.1 hr'
      simp at hr
    · simp
  have hpart (p : Prop) [Decidable p] (l : List Reading) : (if p then l else []).Sublist l := by
    split
    · exact List.Sublist.refl l
    · exact List.nil_sublist l
  exact hall.sublist ((((hpart _ _).append (hpart _ _)).append (hpart _ _)).append (hpart _ _))

/-- The features of a method are the tokens of what it says. -/
theorem features_eq_ofList : s.features m = .ofList ((s.said m).map Feature.ofReading) := by
  refine FeatureSet.ext fun f ↦ ?_
  rw [mem_features_iff, FeatureSet.mem_ofList, List.mem_map]
  simp only [mem_said, and_assoc, eq_comm]

/-- **There are as many features as there is to say**, each string counted once. -/
theorem size_features : (s.features m).size =
    (if s.useReturnType ∧ m.returnType ≠ "" then 1 else 0) +
      (if s.useParameters then (m.parameters.take 255).countP (· ≠ "") else 0) +
      (if s.useStrings then m.strings.dedup.length else 0) +
      (if s.useAccessFlags then 1 else 0) := by
  have hlength : (s.features m).size = (s.said m).length := by
    rw [features_eq_ofList, FeatureSet.size_ofList_of_nodup, List.length_map]
    refine nodup_said.map_on fun r hr r' hr' heq ↦ ?_
    -- both tokens read as what they were made of
    have hread := (mem_said.1 hr).1.read_ofReading
    rw [heq, (mem_said.1 hr').1.read_ofReading] at hread
    exact (Except.ok.inj hread).symm
  have htypes : m.typesByPosition.length = (m.parameters.take 255).countP (· ≠ "") := by
    rw [Method.typesByPosition, ← List.countP_eq_length_filter]
    have hmap :=
      List.countP_map (p := (· ≠ "")) (f := Prod.fst) (l := (m.parameters.take 255).zipIdx)
    rw [List.zipIdx_map_fst] at hmap
    exact hmap.symm
  rw [hlength, said, List.length_append, List.length_append, List.length_append]
  simp only [apply_ite List.length, List.length_map, List.length_singleton, List.length_nil, htypes]

/-- **Extraction is faithful.** The features of one method are among those of another exactly if,
in each category that takes part, all that the one says holds of the other as well. Every feature
is the token of something the method says and reads as just this, and there are as many features as
there is to say, each string counted once. -/
theorem features_faithful (s : Settings) (m m' : Method) :
    (s.features m ⊆ s.features m' ↔
      (s.useReturnType = true → m.returnType = "" ∨ m.returnType = m'.returnType) ∧
        (s.useParameters = true → ∀ i < 255, ∀ d, m.parameters[i]? = some d → d ≠ "" →
          m'.parameters[i]? = some d) ∧
        (s.useStrings = true → ∀ l ∈ m.strings, l ∈ m'.strings) ∧
        (s.useAccessFlags = true → m.accessFlags = m'.accessFlags)) ∧
      (∀ f, f ∈ s.features m ↔ ∃ r, m.Says r ∧ s.uses r.category = true ∧ f = .ofReading r ∧
        f.read = .ok r) ∧
      (s.features m).size =
        (if s.useReturnType ∧ m.returnType ≠ "" then 1 else 0) +
          (if s.useParameters then (m.parameters.take 255).countP (· ≠ "") else 0) +
          (if s.useStrings then m.strings.dedup.length else 0) +
          (if s.useAccessFlags then 1 else 0) := by
  refine ⟨features_subset_iff.trans forall_says_iff, fun f ↦ ?_, size_features⟩
  rw [mem_features_iff]
  refine exists_congr fun r ↦ and_congr_right fun hr ↦ and_congr_right fun _ ↦ ?_
  refine (and_iff_left_of_imp ?_).symm
  rintro rfl
  exact hr.read_ofReading

end Settings

end MethodFingerprint
