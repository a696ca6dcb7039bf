import MethodFingerprint.Proofs.Feature
import MethodFingerprint.Feature.Extract

/-!
# What is drawn from a method

The features of a method say what its record says, category by category. `Method.Says` lists what
there is to say, whatever the settings, and `Settings.mem_features_iff` that the settings choose
among it by category alone.

A feature shows its category. So what is left out when fewer categories take part can be told from
the feature, without the method it was drawn from (`Settings.mem_features_of_within`): this is why
narrower settings act on all methods of a corpus alike.
-/

namespace MethodFingerprint

/-- What a record says of its method: the types that are given, those of the parameters at the
positions that tokens may name, the strings and the mask of access flags. -/
def Method.Says (m : Method) : Reading → Prop
  | .returnType descriptor => descriptor = m.returnType ∧ descriptor ≠ ""
  | .parameter index descriptor =>
    index ≤ Feature.maxParameterIndex ∧ m.parameters[index]? = some descriptor ∧ descriptor ≠ ""
  | .string literal => literal ∈ m.strings
  | .accessFlags mask => mask = m.accessFlags

/-- Every token that is drawn from a method reads as what the method says. -/
theorem Method.Says.read_ofReading {m : Method} {r : Reading} (h : m.Says r) :
    (Feature.ofReading r).read = .ok r := by
  refine Feature.read_ofReading fun index descriptor hr ↦ ?_
  subst hr
  exact h.1

/-- About everything but its strings, a method says one thing. -/
theorem Method.Says.eq_of_category_eq {m : Method} {r r' : Reading} (h : m.Says r)
    (h' : m.Says r') (heq : r.category = r'.category) (hne : r.category ≠ .strings) : r = r' := by
  cases r <;> cases r' <;> simp_all [Reading.category, Says]

/-- The parameters of which something is said: their types and positions, in order. -/
def Method.typesByPosition (m : Method) : List (String × Nat) :=
  (m.parameters.take (Feature.maxParameterIndex + 1)).zipIdx.filter (·.1 ≠ "")

theorem Method.mem_typesByPosition {m : Method} {descriptor : String} {index : Nat} :
    (descriptor, index) ∈ m.typesByPosition ↔ m.Says (.parameter index descriptor) := by
  simp only [typesByPosition, List.mem_filter, decide_eq_true_eq, List.mem_zipIdx_iff_getElem?,
    List.getElem?_take, Option.ite_none_right_eq_some, Nat.lt_succ_iff, and_assoc, Says]

/-- A method **yields** the tokens of what it says. -/
def Method.Yields (m : Method) (f : Feature) : Prop :=
  ∃ r, m.Says r ∧ f = .ofReading r

/-- Every token of a method is well formed. -/
theorem Method.Yields.exists_read {m : Method} {f : Feature} (h : m.Yields f) :
    ∃ r, f.read = .ok r := by
  obtain ⟨r, hsaid, rfl⟩ := h
  exact ⟨r, hsaid.read_ofReading⟩

namespace Settings

/-- Whether a category takes part. -/
def uses (s : Settings) : Category → Bool
  | .returnType => s.useReturnType
  | .parameter _ => s.useParameters
  | .strings => s.useStrings
  | .accessFlags => s.useAccessFlags

/-- Settings are **within** others if every category that takes part under them takes part under
the others. The reserved opcodes do not count, as nothing is drawn from them. -/
def Within (narrower wider : Settings) : Prop :=
  ∀ c, narrower.uses c = true → wider.uses c = true

/-- A token is **admitted** if it is well formed and its category takes part. -/
def Admits (s : Settings) (f : Feature) : Prop :=
  ∃ r, f.read = .ok r ∧ s.uses r.category = true

variable {s narrower wider : Settings} {m : Method} {f : Feature}

/-! ### One category -/

theorem mem_returnTypeFeatures :
    f ∈ returnTypeFeatures m ↔ m.returnType ≠ "" ∧ f = .returnType m.returnType := by
  unfold returnTypeFeatures
  split <;> simp_all

theorem mem_parameterFeatures : f ∈ parameterFeatures m ↔
    ∃ index descriptor, m.Says (.parameter index descriptor) ∧ f = .parameter index descriptor := by
  show f ∈ m.typesByPosition.map (fun p ↦ .parameter p.2 p.1) ↔ _
  rw [List.mem_map, Prod.exists, exists_comm]
  simp only [Method.mem_typesByPosition, eq_comm]

theorem mem_stringFeatures : f ∈ stringFeatures m ↔ ∃ l ∈ m.strings, f = .string l := by
  simp only [stringFeatures, List.mem_map, eq_comm]

theorem mem_accessFlagFeatures : f ∈ accessFlagFeatures m ↔ f = .accessFlags m.accessFlags :=
  List.mem_singleton

/-! ### All categories -/

/-- **The features of a method are what it says in the categories that take part.** -/
theorem mem_features_iff :
    f ∈ s.features m ↔ ∃ r, m.Says r ∧ s.uses r.category = true ∧ f = .ofReading r := by
  have hif (b : Bool) (l : List Feature) : f ∈ (if b = true then l else []) ↔ b = true ∧ f ∈ l := by
    cases b <;> simp
  rw [features, FeatureSet.mem_ofList, List.mem_append, List.mem_append, List.mem_append, hif, hif,
    hif, hif, mem_returnTypeFeatures, mem_parameterFeatures, mem_stringFeatures,
    mem_accessFlagFeatures]
  constructor
  · rintro (((⟨huse, hne, rfl⟩ | ⟨huse, index, descriptor, hsaid, rfl⟩) | ⟨huse, l, hl, rfl⟩) |
      ⟨huse, rfl⟩)
    · exact ⟨.returnType m.returnType, ⟨rfl, hne⟩, huse, rfl⟩
    · exact ⟨.parameter index descriptor, hsaid, huse, rfl⟩
    · exact ⟨.string l, hl, huse, rfl⟩
    · exact ⟨.accessFlags m.accessFlags, rfl, huse, rfl⟩
  · rintro ⟨r, hsaid, huse, rfl⟩
    cases r with
    | returnType descriptor =>
      obtain ⟨rfl, hne⟩ := hsaid
      exact Or.inl (Or.inl (Or.inl ⟨huse, hne, rfl⟩))
    | parameter index descriptor =>
      exact Or.inl (Or.inl (Or.inr ⟨huse, index, descriptor, hsaid, rfl⟩))
    | string l => exact Or.inl (Or.inr ⟨huse, l, hsaid, rfl⟩)
    | accessFlags mask =>
      obtain rfl : mask = m.accessFlags := hsaid
      exact Or.inr ⟨huse, rfl⟩

/-- Whatever the settings, nothing is drawn from a method but what it yields. -/
theorem yields_of_mem_features (h : f ∈ s.features m) : m.Yields f := by
  obtain ⟨r, hsaid, -, rfl⟩ := mem_features_iff.1 h
  exact ⟨r, hsaid, rfl⟩

/-- **Narrower settings keep the tokens they admit**, whatever method these were drawn from. -/
theorem mem_features_of_within (h : narrower.Within wider) :
    f ∈ narrower.features m ↔ f ∈ wider.features m ∧ narrower.Admits f := by
  rw [mem_features_iff, mem_features_iff]
  constructor
  · rintro ⟨r, hsaid, huse, rfl⟩
    exact ⟨⟨r, hsaid, h _ huse, rfl⟩, r, hsaid.read_ofReading, huse⟩
  · rintro ⟨⟨r, hsaid, -, rfl⟩, r', hread, huse⟩
    -- the token says one thing only
    obtain rfl : r = r' := Except.ok.inj (hsaid.read_ofReading.symm.trans hread)
    exact ⟨r, hsaid, huse, rfl⟩

end Settings

end MethodFingerprint
