import MethodFingerprint.Proofs.Distinct
import MethodFingerprint.Proofs.Feature.Extract
import MethodFingerprint.Proofs.Feature.Order
import MethodFingerprint.Proofs.Isolation
import MethodFingerprint.Proofs.Pattern.RoundTrip

/-!
# The features a pattern asks for

`Pattern.Asks` lists what a pattern asks for, as `Method.Says` lists what a record says. The
features of a pattern are the tokens of that, in ascending order if no string is asked for twice
(`Pattern.mem_features`, `Pattern.pairwise_features`).

`Pattern.ofReadings` is the pattern that is read back from a written one (`Pattern.parse_render`).
In general the writer drops what disagrees with an earlier feature. If the features fit together,
the pattern asks for all of them and for nothing else, but for the bits of the mask that no flag
accounts for (`Pattern.asks_ofReadings_iff`). Tokens of one method do (`Pattern.fit_of_method`). As
the mask comes first in token order whatever it is, cutting it down moves no token, and their
features come back in the order in which they were (`Pattern.features_ofReadings`).
-/

namespace MethodFingerprint

/-! ### Known flags -/

/-- What a reading says, without the bits of a mask that no flag accounts for. -/
def Reading.withKnownFlags : Reading → Reading
  | accessFlags mask => accessFlags (mask &&& AccessFlag.knownBits)
  | r => r

@[simp] theorem Reading.category_withKnownFlags (r : Reading) :
    r.withKnownFlags.category = r.category := by
  cases r <;> rfl

theorem Reading.withKnownFlags_of_ne {r : Reading} (h : r.category ≠ .accessFlags) :
    r.withKnownFlags = r := by
  cases r <;> first | rfl | exact absurd rfl h

/-- The token, without the bits of a mask that no flag accounts for. -/
def Feature.withKnownFlags (f : Feature) : Feature :=
  match f.read with
  | .ok (.accessFlags mask) => accessFlags (mask &&& AccessFlag.knownBits)
  | _ => f

namespace Method

variable {m : Method} {r r' : Reading} {f g : Feature}

/-- The token of what a method says is cut down as the reading is. -/
theorem Says.withKnownFlags_ofReading (h : m.Says r) :
    (Feature.ofReading r).withKnownFlags = .ofReading r.withKnownFlags := by
  rw [Feature.withKnownFlags, h.read_ofReading]
  cases r <;> rfl

/-- **Cutting the mask down moves no token** of a method, as there is one mask and it comes first.
-/
theorem Yields.withKnownFlags_lt (hf : m.Yields f) (hg : m.Yields g) (hlt : f < g) :
    f.withKnownFlags < g.withKnownFlags := by
  obtain ⟨r, hr, rfl⟩ := hf
  obtain ⟨r', hr', rfl⟩ := hg
  rw [hr.withKnownFlags_ofReading, hr'.withKnownFlags_ofReading]
  by_cases hflags : r.category = .accessFlags
  · have hne : r'.category ≠ .accessFlags := by
      intro hflags'
      obtain rfl := hr.eq_of_category_eq hr' (hflags.trans hflags'.symm) (by simp [hflags])
      exact Feature.lt_irrefl _ hlt
    rw [Reading.withKnownFlags_of_ne hne]
    cases r with
    | accessFlags mask => exact Feature.accessFlags_lt_ofReading _ hne
    | returnType | parameter | string => cases hflags
  · rw [Reading.withKnownFlags_of_ne hflags]
    by_cases hflags' : r'.category = .accessFlags
    · cases r' with
      | accessFlags mask =>
        exact absurd (Feature.accessFlags_lt_ofReading mask hflags) (Std.Asymm.asymm _ _ hlt)
      | returnType | parameter | string => cases hflags'
    · rwa [Reading.withKnownFlags_of_ne hflags']

/-- Different tokens of a method stay different. -/
theorem Yields.eq_of_withKnownFlags_eq (hf : m.Yields f) (hg : m.Yields g)
    (heq : f.withKnownFlags = g.withKnownFlags) : f = g := by
  refine Std.Trichotomous.trichotomous (α := Feature) (r := (· < ·)) f g (fun hlt ↦ ?_) fun hlt ↦ ?_
  · exact Feature.lt_irrefl _ (heq ▸ hf.withKnownFlags_lt hg hlt)
  · exact Feature.lt_irrefl _ (heq ▸ hg.withKnownFlags_lt hf hlt)

end Method

namespace FeatureSet

variable {m : Method} {s t : FeatureSet}

/-- The tokens of a set, cut down, are in ascending order. -/
theorem pairwise_withKnownFlags (h : ∀ f ∈ s, m.Yields f) :
    (s.toList.map Feature.withKnownFlags).Pairwise (· < ·) := by
  rw [List.pairwise_map]
  exact s.ascending.imp_of_mem fun hf hg hlt ↦ (h _ hf).withKnownFlags_lt (h _ hg) hlt

/-- Different sets of tokens of a method stay different. -/
theorem eq_of_map_withKnownFlags_eq (hs : ∀ f ∈ s, m.Yields f) (ht : ∀ f ∈ t, m.Yields f)
    (heq : s.toList.map Feature.withKnownFlags = t.toList.map Feature.withKnownFlags) : s = t := by
  have hsub {s t : FeatureSet} (hs : ∀ f ∈ s, m.Yields f) (ht : ∀ f ∈ t, m.Yields f)
      (heq : s.toList.map Feature.withKnownFlags = t.toList.map Feature.withKnownFlags) :
      s ⊆ t := by
    intro f hf
    obtain ⟨g, hg, hfg⟩ := List.mem_map.1 (heq ▸ List.mem_map_of_mem hf)
    rwa [← (ht g hg).eq_of_withKnownFlags_eq (hs f hf) hfg]
  exact subset_antisymm (hsub hs ht heq) (hsub ht hs heq.symm)

end FeatureSet

namespace Pattern

variable {p : Pattern} {f : Feature} {r : Reading}

/-! ### What a pattern asks for -/

/-- What a pattern asks for. -/
def Asks (p : Pattern) : Reading → Prop
  | .returnType descriptor => p.returnType = some descriptor
  | .parameter index descriptor =>
    ∃ slots, p.parameters = some slots ∧ slots[index]? = some (some descriptor)
  | .string literal => literal ∈ p.strings
  | .accessFlags mask => p.accessFlags = some mask

/-- What is asked for at positions. -/
def askedAt (slots : List (Option String)) : List Reading :=
  slots.zipIdx.filterMap fun q ↦ q.1.map (Reading.parameter q.2)

/-- What a pattern asks for, section by section. -/
def asked (p : Pattern) : List Reading :=
  p.returnType.toList.map .returnType ++ p.accessFlags.toList.map .accessFlags ++
    askedAt (p.parameters.getD []) ++ p.strings.map .string

theorem mem_askedAt {slots : List (Option String)} : r ∈ askedAt slots ↔
    ∃ index descriptor, slots[index]? = some (some descriptor) ∧
      r = .parameter index descriptor := by
  simp only [askedAt, List.mem_filterMap, Prod.exists, List.mem_zipIdx_iff_getElem?,
    Option.map_eq_some_iff]
  constructor
  · rintro ⟨_, index, hget, descriptor, rfl, rfl⟩
    exact ⟨index, descriptor, hget, rfl⟩
  · rintro ⟨index, descriptor, hget, rfl⟩
    exact ⟨_, index, hget, descriptor, rfl, rfl⟩

theorem mem_asked : r ∈ p.asked ↔ p.Asks r := by
  simp only [asked, List.mem_append, mem_askedAt, List.mem_map, Option.mem_toList]
  cases r <;> cases hp : p.parameters <;> simp [Asks, hp]

/-- Nothing is asked for twice, unless it is a string. -/
theorem nodup_asked (h : p.strings.Nodup) : p.asked.Nodup := by
  have hoption {α : Type} (o : Option α) (g : α → Reading) : (o.toList.map g).Nodup := by
    cases o <;> simp
  have hslots (slots : List (Option String)) : (askedAt slots).Nodup := by
    -- every position is gone through once
    have hpositions : slots.zipIdx.Pairwise fun q q' ↦ q.2 ≠ q'.2 := by
      rw [← List.pairwise_map (f := Prod.snd), List.zipIdx_map_snd]
      exact List.nodup_range'
    refine List.Pairwise.filterMap _ (fun q q' hne r hr r' hr' ↦ ?_) hpositions
    obtain ⟨descriptor, -, rfl⟩ := Option.map_eq_some_iff.1 hr
    obtain ⟨descriptor', -, rfl⟩ := Option.map_eq_some_iff.1 hr'
    exact fun heq ↦ hne (Reading.parameter.inj heq).1
  have hstrings : (p.strings.map Reading.string).Nodup :=
    h.map fun l l' heq ↦ Reading.string.inj heq
  -- different sections ask for different things
  refine (((hoption _ _).append (hoption _ _) ?_).append (hslots _) ?_).append hstrings ?_
  · simp [List.disjoint_left]
  · intro r hr hr'
    obtain ⟨index, descriptor, -, rfl⟩ := mem_askedAt.1 hr'
    simp at hr
  · intro r hr hr'
    obtain ⟨literal, -, rfl⟩ := List.mem_map.1 hr'
    simp [mem_askedAt] at hr

theorem features_eq (p : Pattern) :
    p.features = (p.asked.map Feature.ofReading).mergeSort fun f g ↦ !decide (g < f) := by
  have hslots (slots : List (Option String)) :
      parameterFeatures slots = (askedAt slots).map Feature.ofReading := by
    simp only [parameterFeatures, askedAt, List.map_filterMap, Option.map_map]
    rfl
  have hparameters : (p.parameters.map parameterFeatures).getD [] =
      (askedAt (p.parameters.getD [])).map Feature.ofReading := by
    rw [← hslots]
    cases p.parameters <;> rfl
  simp only [features, asked, hparameters, List.map_append, List.map_map]
  rfl

/-- **The features of a pattern are the tokens of what it asks for.** -/
theorem mem_features : f ∈ p.features ↔ ∃ r, p.Asks r ∧ f = .ofReading r := by
  simp only [features_eq, List.mem_mergeSort, List.mem_map, mem_asked, eq_comm]

/-- The token of what is asked for reads back, if no position is past the last. -/
theorem Asks.read_ofReading (hr : p.Asks r)
    (hslots : ∀ slots, p.parameters = some slots → slots.length ≤ maxParameters) :
    (Feature.ofReading r).read = .ok r := by
  refine Feature.read_ofReading fun index descriptor hparameter ↦ ?_
  obtain ⟨slots, hsome, hget⟩ : p.Asks (.parameter index descriptor) := hparameter ▸ hr
  obtain ⟨hlt, -⟩ := List.getElem?_eq_some_iff.1 hget
  exact Nat.le_of_lt_succ (hlt.trans_le (hslots slots hsome))

/-- **The features of a pattern are in ascending order**, if every string is asked for once and no
position is past the last. -/
theorem pairwise_features (hstrings : p.strings.Nodup)
    (hslots : ∀ slots, p.parameters = some slots → slots.length ≤ maxParameters) :
    p.features.Pairwise (· < ·) := by
  rw [features_eq]
  refine pairwise_lt_mergeSort ((nodup_asked hstrings).map_on fun r hr r' hr' heq ↦ ?_)
  have hread {r : Reading} (hr : r ∈ p.asked) : (Feature.ofReading r).read = .ok r :=
    (mem_asked.1 hr).read_ofReading hslots
  exact Except.ok.inj ((hread hr).symm.trans (heq ▸ hread hr'))

/-! ### What is read back -/

/-- The pattern that is read back when some features with these readings have been written. -/
def ofReadings (parameterCount : Option Nat) (rs : List Reading) : Pattern where
  returnType := rs.findSome? Reading.returnType?
  accessFlags := (rs.findSome? Reading.mask?).map (· &&& AccessFlag.knownBits)
  parameters := (rs.filterMap Reading.index?).max?.map fun highest ↦
    (List.range (min maxParameters (max (parameterCount.getD 0) (highest + 1)))).map fun i ↦
      (rs.findSome? (Reading.typeAt? i)).filter (· ≠ "")
  strings := (rs.filterMap Reading.literal?).eraseDups

variable {m : Method} {rs : List Reading} {s : FeatureSet} {parameterCount : Option Nat}

/-- Readings **fit** a number of parameters if they say one thing in every category other than
strings, and types, which are not empty, only of positions that there are and that tokens may name.
-/
structure Fit (parameterCount : Option Nat) (rs : List Reading) : Prop where
  eq_of_category_eq : ∀ r ∈ rs, ∀ r' ∈ rs, r.category = r'.category → r.category ≠ .strings → r = r'
  lt_of_mem : ∀ i d, .parameter i d ∈ rs → i < min maxParameters (parameterCount.getD 0)
  ne_of_mem : ∀ i d, .parameter i d ∈ rs → d ≠ ""

/-- What a method says fits its parameters. -/
theorem fit_of_method (h : ∀ r ∈ rs, m.Says r) : Fit (some m.parameters.length) rs where
  eq_of_category_eq r hr r' hr' := (h r hr).eq_of_category_eq (h r' hr')
  lt_of_mem i d hmem := by
    obtain ⟨hle, hget, -⟩ := h _ hmem
    exact Nat.lt_min.2 ⟨Nat.lt_succ_of_le hle, (List.getElem?_eq_some_iff.1 hget).1⟩
  ne_of_mem i d hmem := (h _ hmem).2.2

/-- One thing is said in a category other than strings, so the first reading that gives it is any
that does. -/
theorem findSome?_eq_some_iff_mem {α : Type} {g : Reading → Option α} {mk : α → Reading}
    {c : Category} {a : α} (h : Fit parameterCount rs) (hg : ∀ r a, g r = some a ↔ r = mk a)
    (hc : ∀ a, (mk a).category = c) (hne : c ≠ .strings) :
    rs.findSome? g = some a ↔ mk a ∈ rs := by
  constructor
  · intro hfirst
    obtain ⟨r, hr, hra⟩ := List.exists_of_findSome?_eq_some hfirst
    rwa [← (hg r a).1 hra]
  · intro hmem
    obtain ⟨a', hfirst⟩ := Option.isSome_iff_exists.1
      (List.findSome?_isSome_iff.2 ⟨mk a, hmem, Option.isSome_iff_exists.2 ⟨a, (hg _ _).2 rfl⟩⟩)
    obtain ⟨r, hr, hra⟩ := List.exists_of_findSome?_eq_some hfirst
    obtain rfl := (hg r a').1 hra
    have heq := h.eq_of_category_eq _ hr _ hmem ((hc a').trans (hc a).symm) (hc a' ▸ hne)
    rw [hfirst, ← (hg (mk a') a').2 rfl, (hg (mk a') a).2 heq]

/-- There are positions exactly if something is said about one. -/
theorem isSome_parameters_ofReadings :
    (ofReadings parameterCount rs).parameters.isSome ↔ ∃ i d, .parameter i d ∈ rs := by
  simp only [ofReadings, Option.isSome_map, List.isSome_max?_iff, ne_eq,
    List.eq_nil_iff_forall_not_mem, List.mem_filterMap, Reading.index?_eq_some_iff, not_forall,
    not_not]
  constructor
  · rintro ⟨i, _, hr, d, rfl⟩
    exact ⟨i, d, hr⟩
  · rintro ⟨i, d, hr⟩
    exact ⟨i, _, hr, d, rfl⟩

/-- **The positions of readings that fit** are all that there are, but for those that no token may
name, each with what is said about it. -/
theorem parameters_ofReadings (h : Fit parameterCount rs) {i : Nat} {d : String}
    (hmem : .parameter i d ∈ rs) :
    (ofReadings parameterCount rs).parameters =
      some ((List.range (min maxParameters (parameterCount.getD 0))).map fun i ↦
        rs.findSome? (Reading.typeAt? i)) := by
  obtain ⟨highest, hmax⟩ : ∃ highest, (rs.filterMap Reading.index?).max? = some highest :=
    Option.isSome_iff_exists.1 (List.isSome_max?_of_mem
      (List.mem_filterMap.2 ⟨_, hmem, Reading.index?_eq_some_iff.2 ⟨d, rfl⟩⟩))
  have hlt : highest < parameterCount.getD 0 := by
    obtain ⟨r, hr, hindex⟩ := List.mem_filterMap.1 (List.max?_eq_some_iff.1 hmax).1
    obtain ⟨d', rfl⟩ := Reading.index?_eq_some_iff.1 hindex
    exact (Nat.lt_min.1 (h.lt_of_mem _ _ hr)).2
  simp only [ofReadings, hmax, Option.map_some, Nat.max_eq_left hlt]
  refine congrArg some (List.map_congr_left fun i _ ↦ ?_)
  cases hfirst : rs.findSome? (Reading.typeAt? i) with
  | none => rfl
  | some d =>
    -- a type that is said is not empty
    obtain ⟨r, hr, htype⟩ := List.exists_of_findSome?_eq_some hfirst
    obtain rfl := Reading.typeAt?_eq_some_iff.1 htype
    exact Option.filter_some_pos (decide_eq_true (h.ne_of_mem _ _ hr))

theorem length_parameters_ofReadings (h : Fit parameterCount rs) {slots : List (Option String)}
    (hslots : (ofReadings parameterCount rs).parameters = some slots) :
    slots.length = min maxParameters (parameterCount.getD 0) := by
  obtain ⟨i, d, hmem⟩ := isSome_parameters_ofReadings.1 (Option.isSome_of_eq_some hslots)
  cases (parameters_ofReadings h hmem).symm.trans hslots
  rw [List.length_map, List.length_range]

/-- A position is asked for exactly if something is said about it. -/
theorem asks_parameter_ofReadings_iff (h : Fit parameterCount rs) {i : Nat} {d : String} :
    (ofReadings parameterCount rs).Asks (.parameter i d) ↔ .parameter i d ∈ rs := by
  have htype : rs.findSome? (Reading.typeAt? i) = some d ↔ .parameter i d ∈ rs :=
    findSome?_eq_some_iff_mem h (fun _ _ ↦ Reading.typeAt?_eq_some_iff) (fun _ ↦ rfl) (by simp)
  constructor
  · rintro ⟨slots, hslots, hget⟩
    obtain ⟨_, _, hmem⟩ := isSome_parameters_ofReadings.1 (Option.isSome_of_eq_some hslots)
    cases (parameters_ofReadings h hmem).symm.trans hslots
    rw [List.getElem?_map, Option.map_eq_some_iff] at hget
    obtain ⟨i', hi', hfirst⟩ := hget
    obtain ⟨hlt, rfl⟩ := List.getElem?_eq_some_iff.1 hi'
    rw [List.getElem_range] at hfirst
    exact htype.1 hfirst
  · intro hmem
    refine ⟨_, parameters_ofReadings h hmem, ?_⟩
    rw [List.getElem?_map, List.getElem?_range (h.lt_of_mem i d hmem), Option.map_some,
      htype.2 hmem]

/-- Cutting masks down leaves everything else that is said. -/
theorem exists_withKnownFlags_iff (hne : r.category ≠ .accessFlags) :
    (∃ r' ∈ rs, r = r'.withKnownFlags) ↔ r ∈ rs := by
  constructor
  · rintro ⟨r', hr', rfl⟩
    rw [Reading.category_withKnownFlags] at hne
    rwa [Reading.withKnownFlags_of_ne hne]
  · exact fun hr ↦ ⟨r, hr, (Reading.withKnownFlags_of_ne hne).symm⟩

/-- **Nothing that fits gets lost** on the way through the text of a pattern but the bits of the
mask that no flag accounts for, and nothing is added. -/
theorem asks_ofReadings_iff (h : Fit parameterCount rs) :
    (ofReadings parameterCount rs).Asks r ↔ ∃ r' ∈ rs, r = r'.withKnownFlags := by
  cases r with
  | returnType descriptor =>
    rw [exists_withKnownFlags_iff (by simp [Reading.category])]
    exact findSome?_eq_some_iff_mem h (fun _ _ ↦ Reading.returnType?_eq_some_iff) (fun _ ↦ rfl)
      (by decide)
  | accessFlags mask =>
    have hmask (mask : UInt32) : rs.findSome? Reading.mask? = some mask ↔ .accessFlags mask ∈ rs :=
      findSome?_eq_some_iff_mem h (fun _ _ ↦ Reading.mask?_eq_some_iff) (fun _ ↦ rfl) (by decide)
    simp only [Asks, ofReadings, Option.map_eq_some_iff, hmask]
    constructor
    · rintro ⟨mask', hmem, rfl⟩
      exact ⟨_, hmem, rfl⟩
    · rintro ⟨r', hmem, heq⟩
      cases r' with
      | accessFlags mask' => exact ⟨mask', hmem, (Reading.accessFlags.inj heq).symm⟩
      | returnType | parameter | string => cases heq
  | parameter index descriptor =>
    rw [exists_withKnownFlags_iff (by simp [Reading.category])]
    exact asks_parameter_ofReadings_iff h
  | string literal =>
    rw [exists_withKnownFlags_iff (by simp [Reading.category])]
    simp only [Asks, ofReadings, List.mem_eraseDups, List.mem_filterMap,
      Reading.literal?_eq_some_iff, exists_eq_right]

/-- **What is written is read back as what was gathered.** -/
theorem parse_render (parameterCount : Option Nat) (features : List Feature) :
    parse (render parameterCount features).text =
      .ok (ofReadings parameterCount (readings features)) := by
  have h := Gathering.holds_ofFeatures features
  have hparse := parseChars_textOfSections_sections parameterCount (Gathering.ofFeatures features)
  rw [parameters_eq h, h.returnType_eq, h.accessFlags_eq, h.strings_eq,
    ← String.toList_ofList (l := textOfSections _)] at hparse
  exact hparse

/-- **Writing reports the malformed features** and no others. -/
theorem skipped_render (parameterCount : Option Nat) (features : List Feature) :
    (render parameterCount features).skipped = malformations features :=
  Gathering.skipped_ofFeatures features

/-- Nothing is reported if all features are well formed. -/
theorem skipped_render_eq_nil {features : List Feature} (h : ∀ f ∈ features, ∃ r, f.read = .ok r)
    (parameterCount : Option Nat) : (render parameterCount features).skipped = [] := by
  rw [skipped_render]
  refine List.filterMap_eq_nil_iff.2 fun f hf ↦ ?_
  obtain ⟨r, hread⟩ := h f hf
  rw [hread]

/-! ### Tokens of one method -/

theorem says_of_mem_readings (h : ∀ f ∈ s, m.Yields f) : ∀ r ∈ readings s.toList, m.Says r := by
  intro r hr
  obtain ⟨f, hf, hread⟩ := mem_readings.1 hr
  obtain ⟨r', hsaid, rfl⟩ := h f hf
  rwa [Except.ok.inj (hread.symm.trans hsaid.read_ofReading)]

/-- **Tokens of one method come back**, in order, without the bits of the mask that no flag accounts
for. -/
theorem features_ofReadings (h : ∀ f ∈ s, m.Yields f) :
    (ofReadings (some m.parameters.length) (readings s.toList)).features =
      s.toList.map Feature.withKnownFlags := by
  have hfit := fit_of_method (says_of_mem_readings h)
  have hascending :
      (ofReadings (some m.parameters.length) (readings s.toList)).features.Pairwise (· < ·) := by
    refine pairwise_features (nodup_eraseDups _) fun slots hslots ↦ ?_
    rw [length_parameters_ofReadings hfit hslots]
    exact Nat.min_le_left _ _
  -- both lists are ascending, so they are equal once they have the same members
  refine congrArg FeatureSet.toList (FeatureSet.ext (s := ⟨_, hascending⟩)
    (t := ⟨_, FeatureSet.pairwise_withKnownFlags h⟩) fun f ↦ ?_)
  simp only [FeatureSet.mem_def, mem_features, asks_ofReadings_iff hfit, List.mem_map]
  constructor
  · rintro ⟨_, ⟨r, hr, rfl⟩, rfl⟩
    obtain ⟨f, hf, hread⟩ := mem_readings.1 hr
    obtain ⟨r', hr', rfl⟩ := h f hf
    obtain rfl := Except.ok.inj (hread.symm.trans hr'.read_ofReading)
    exact ⟨_, hf, hr'.withKnownFlags_ofReading⟩
  · rintro ⟨f, hf, rfl⟩
    obtain ⟨r, hr, rfl⟩ := h f hf
    exact ⟨_, ⟨r, mem_readings.2 ⟨_, hf, hr.read_ofReading⟩, rfl⟩, hr.withKnownFlags_ofReading⟩

/-- **A pattern of tokens of one method describes this method.** It asks for the tokens and for
nothing else, and it has positions exactly if one of them is about a position, and then all that the
method has. -/
theorem exists_parse_render_of_yields (h : ∀ f ∈ s, m.Yields f) :
    ∃ p, parse (render (some m.parameters.length) s.toList).text = .ok p ∧
      p.features = s.toList.map Feature.withKnownFlags ∧
      (p.parameters.isSome ↔ ∃ f ∈ s, ∃ i d, f.read = .ok (.parameter i d)) ∧
      ∀ slots, p.parameters = some slots →
        slots.length = min maxParameters m.parameters.length := by
  refine ⟨_, parse_render _ _, features_ofReadings h, ?_, fun slots hslots ↦ ?_⟩
  · rw [isSome_parameters_ofReadings]
    simp only [mem_readings]
    constructor
    · rintro ⟨i, d, f, hf, hread⟩
      exact ⟨f, hf, i, d, hread⟩
    · rintro ⟨f, hf, i, d, hread⟩
      exact ⟨i, d, f, hf, hread⟩
  · exact length_parameters_ofReadings (fit_of_method (says_of_mem_readings h)) hslots

/-- **Different sets of tokens of one method have different patterns.** -/
theorem eq_of_text_render_eq {t : FeatureSet} (hs : ∀ f ∈ s, m.Yields f) (ht : ∀ f ∈ t, m.Yields f)
    (heq : (render (some m.parameters.length) s.toList).text =
      (render (some m.parameters.length) t.toList).text) : s = t := by
  have hread := congrArg parse heq
  rw [parse_render, parse_render, Except.ok.injEq] at hread
  have hfeatures := congrArg features hread
  rw [features_ofReadings hs, features_ofReadings ht] at hfeatures
  exact FeatureSet.eq_of_map_withKnownFlags_eq hs ht hfeatures

end Pattern

end MethodFingerprint
