import MethodFingerprint.Proofs.Feature.Grammar
import MethodFingerprint.Proofs.Pattern.Recognition
import MethodFingerprint.Proofs.Pattern.Writing

/-!
# Writing a pattern again

Many texts are read as patterns that are never written: sections in any order, flags and strings
that come twice, positions without a type. Such a pattern is **tidied** when it is written again
from its features (`Pattern.tidied`): the strings are sorted and each is kept once, and positions
are given up if none of them has a type. Nothing else is lost on the way
(`Pattern.Regular.readBack_eq`), as what is read has no unknown flags, no empty types and no more
positions than tokens can name (`Pattern.regular_of_parse`). Tidying twice is tidying once
(`Pattern.tidied_tidied`), so the text does not change any more.
-/

namespace MethodFingerprint

namespace Pattern

variable {p : Pattern} {text : String} {r : Reading}

/-! ### Tidying -/

/-- A pattern as it is read back after it has been written again. -/
def tidied (p : Pattern) : Pattern where
  returnType := p.returnType
  accessFlags := p.accessFlags
  parameters := p.parameters.filter fun slots ↦ slots.any Option.isSome
  strings := p.strings.eraseDups.mergeSort fun s t ↦ !decide (t < s)

/-- **A pattern written again**, from its features and with as many positions as it has. -/
def rewritten (p : Pattern) : Rendered :=
  render (p.parameters.map List.length) p.features

/-- What is read back of it. -/
def readBack (p : Pattern) : Pattern :=
  ofReadings (p.parameters.map List.length) (readings p.features)

/-- The strings of a tidied pattern are in ascending order. -/
theorem pairwise_strings_tidied (p : Pattern) : p.tidied.strings.Pairwise (· < ·) :=
  pairwise_lt_mergeSort (nodup_eraseDups _)

/-- They are the strings of the pattern. -/
theorem mem_strings_tidied {s : String} : s ∈ p.tidied.strings ↔ s ∈ p.strings := by
  rw [tidied, List.mem_mergeSort, List.mem_eraseDups]

/-- **Tidying twice is tidying once.** -/
theorem tidied_tidied (p : Pattern) : p.tidied.tidied = p.tidied := by
  have hparameters : p.tidied.tidied.parameters = p.tidied.parameters := by
    simp only [tidied, Option.filter_filter, Bool.and_self]
  have hstrings : p.tidied.tidied.strings = p.tidied.strings :=
    List.Pairwise.eq_of_mem_iff (pairwise_strings_tidied _) (pairwise_strings_tidied _)
      fun _ ↦ mem_strings_tidied
  exact congrArg₂ (Pattern.mk p.returnType p.accessFlags) hparameters hstrings

/-! ### Patterns that are read -/

/-- A pattern is **regular** if it has no unknown flags, no more positions than tokens can name and
no empty types. -/
structure Regular (p : Pattern) : Prop where
  and_knownBits : ∀ mask, p.accessFlags = some mask →
    mask &&& AccessFlag.knownBits = mask
  length_le : ∀ slots, p.parameters = some slots → slots.length ≤ maxParameters
  empty_not_mem : ∀ slots, p.parameters = some slots → some "" ∉ slots

/-- Lines state no more types than there may be positions. -/
theorem LinesSay.length_le {ls : List (List Char)} {sts : List Statement} {types : List String}
    (h : LinesSay ls sts) (hmem : .parameters types ∈ sts) : types.length ≤ maxParameters := by
  induction h with
  | nil => cases hmem
  | blank _ _ ih => exact ih hmem
  | statement hline _ ih =>
    rcases List.mem_cons.1 hmem with rfl | hmem
    · obtain ⟨-, -, -, hsays⟩ := hline
      cases hsays with
      | parameters _ hlen => exact hlen
    · exact ih hmem

/-- The empty type leaves its position open. -/
theorem slotOfType_ne (descriptor : String) : slotOfType descriptor ≠ some "" := by
  by_cases h : descriptor = ""
  · rw [slotOfType, if_pos h]
    exact (Option.some_ne_none _).symm
  · rw [slotOfType, if_neg h]
    exact fun heq ↦ h (Option.some.inj heq)

/-- **Whatever is read is regular.** -/
theorem regular_of_parse (h : parse text = .ok p) : p.Regular := by
  rw [parse, parseChars] at h
  split at h
  · cases h
  · obtain ⟨d, hadd, rfl⟩ := map_eq_ok_iff.1 h
    obtain ⟨sts, hlines, hadmits, rfl⟩ := Draft.addLines_eq_ok_iff.1 hadd
    have hrecords := Draft.records_foldl hadmits.1
    refine ⟨fun mask hmask ↦ ?_, fun slots hslots ↦ ?_, fun slots hslots ↦ ?_⟩
    · obtain ⟨flags, -, rfl⟩ := (hrecords.accessFlags_iff mask).1 hmask
      exact AccessFlag.encode_and_knownBits flags
    · obtain ⟨types, hmem, rfl⟩ := (hrecords.parameters_iff slots).1 hslots
      rw [List.length_map]
      exact hlines.length_le hmem
    · obtain ⟨types, -, rfl⟩ := (hrecords.parameters_iff slots).1 hslots
      intro hmem
      obtain ⟨type, -, htype⟩ := List.mem_map.1 hmem
      exact slotOfType_ne type htype

/-- **The strings of features in token order do not go down**, as a token is made anew from its
string. -/
theorem pairwise_literals {features : List Feature} (h : features.Pairwise fun f g ↦ ¬g < f) :
    ((readings features).filterMap Reading.literal?).Pairwise fun s t ↦ ¬t < s := by
  have htoken {f : Feature} {s : String} (hs : f.read.toOption.bind Reading.literal? = some s) :
      .string s = f := by
    obtain ⟨r, hread, hliteral⟩ := Option.bind_eq_some_iff.1 hs
    rw [toOption_eq_some_iff, Reading.literal?_eq_some_iff.1 hliteral] at hread
    exact (Feature.ofReading_of_read hread).resolve_right nofun
  rw [readings, List.filterMap_filterMap]
  refine h.filterMap _ fun f g hle s hs t ht hlt ↦ hle ?_
  rw [← htoken hs, ← htoken ht]
  exact Feature.string_lt_string hlt

/-- Positions are the same if they are as many and the same types stand at them. -/
theorem eq_of_getElem?_iff {slots slots' : List (Option String)}
    (hlength : slots.length = slots'.length)
    (h : ∀ (i : Nat) (d : String), slots[i]? = some (some d) ↔ slots'[i]? = some (some d)) :
    slots = slots' := by
  refine List.ext_getElem hlength fun i hi hi' ↦ Option.ext fun d ↦ ?_
  have hiff := h i d
  rwa [List.getElem?_eq_getElem hi, List.getElem?_eq_getElem hi', Option.some.injEq,
    Option.some.injEq] at hiff

namespace Regular

/-- A regular pattern stays so when it is tidied. -/
theorem tidied (h : p.Regular) : p.tidied.Regular where
  and_knownBits := h.and_knownBits
  length_le slots hslots := h.length_le slots (Option.filter_eq_some_iff.1 hslots).1
  empty_not_mem slots hslots := h.empty_not_mem slots (Option.filter_eq_some_iff.1 hslots).1

/-- What is asked for has no unknown flags. -/
theorem withKnownFlags_eq (h : p.Regular) (hr : p.Asks r) : r.withKnownFlags = r := by
  cases r with
  | accessFlags mask => exact congrArg Reading.accessFlags (h.and_knownBits mask hr)
  | returnType | parameter | string => rfl

/-- The features of a regular pattern are well formed. -/
theorem exists_read (h : p.Regular) {f : Feature} (hf : f ∈ p.features) :
    ∃ r, f.read = .ok r := by
  obtain ⟨r, hr, rfl⟩ := mem_features.1 hf
  exact ⟨r, hr.read_ofReading h.length_le⟩

/-- They say what is asked for. -/
theorem mem_readings_iff (h : p.Regular) : r ∈ readings p.features ↔ p.Asks r := by
  simp only [mem_readings, mem_features]
  constructor
  · rintro ⟨_, ⟨r', hr', rfl⟩, hread⟩
    rwa [← Except.ok.inj ((hr'.read_ofReading h.length_le).symm.trans hread)]
  · exact fun hr ↦ ⟨_, ⟨r, hr, rfl⟩, hr.read_ofReading h.length_le⟩

/-- **What is asked for fits the positions.** -/
theorem fit (h : p.Regular) : Fit (p.parameters.map List.length) (readings p.features) where
  eq_of_category_eq r hr r' hr' hcategory hne := by
    rw [h.mem_readings_iff] at hr hr'
    cases r <;> cases r' <;> cases hcategory
    case returnType => exact congrArg _ (Option.some.inj (hr.symm.trans hr'))
    case accessFlags => exact congrArg _ (Option.some.inj (hr.symm.trans hr'))
    case string => exact absurd rfl hne
    case parameter =>
      obtain ⟨slots, hslots, hget⟩ := hr
      obtain ⟨slots', hslots', hget'⟩ := hr'
      cases hslots.symm.trans hslots'
      cases hget.symm.trans hget'
      rfl
  lt_of_mem i d hmem := by
    obtain ⟨slots, hslots, hget⟩ := h.mem_readings_iff.1 hmem
    have hlt : i < slots.length := (List.getElem?_eq_some_iff.1 hget).1
    rw [hslots]
    exact Nat.lt_min.2 ⟨hlt.trans_le (h.length_le slots hslots), hlt⟩
  ne_of_mem i d hmem := by
    obtain ⟨slots, hslots, hget⟩ := h.mem_readings_iff.1 hmem
    rintro rfl
    exact h.empty_not_mem slots hslots (List.mem_of_getElem? hget)

/-- The pattern that is read back, after a regular one has been written again, asks for the same. -/
theorem asks_readBack_iff (h : p.Regular) : p.readBack.Asks r ↔ p.Asks r := by
  rw [readBack, asks_ofReadings_iff h.fit]
  constructor
  · rintro ⟨r', hr', rfl⟩
    rw [h.mem_readings_iff] at hr'
    rwa [h.withKnownFlags_eq hr']
  · exact fun hr ↦ ⟨r, h.mem_readings_iff.2 hr, (h.withKnownFlags_eq hr).symm⟩

/-- There are positions exactly if one of them has a type. -/
theorem isSome_parameters_readBack (h : p.Regular) :
    p.readBack.parameters.isSome ↔
      ∃ slots, p.parameters = some slots ∧ slots.any Option.isSome := by
  rw [readBack, isSome_parameters_ofReadings]
  simp only [h.mem_readings_iff, Asks, List.any_eq_true, List.mem_iff_getElem?,
    Option.isSome_iff_exists]
  constructor
  · rintro ⟨i, d, slots, hslots, hget⟩
    exact ⟨slots, hslots, _, ⟨i, hget⟩, d, rfl⟩
  · rintro ⟨slots, hslots, _, ⟨i, hget⟩, d, rfl⟩
    exact ⟨i, d, slots, hslots, hget⟩

/-- **Positions come back as they were**, unless none of them has a type. -/
theorem parameters_readBack (h : p.Regular) : p.readBack.parameters = p.tidied.parameters := by
  cases hp : p.tidied.parameters with
  | none =>
    rw [← Option.not_isSome_iff_eq_none, h.isSome_parameters_readBack]
    rintro ⟨slots, hslots, hany⟩
    exact Option.filter_eq_none_iff.1 hp slots hslots hany
  | some slots =>
    obtain ⟨hslots, hany⟩ := Option.filter_eq_some_iff.1 hp
    obtain ⟨slots', hslots'⟩ :=
      Option.isSome_iff_exists.1 (h.isSome_parameters_readBack.2 ⟨slots, hslots, hany⟩)
    have hlength : slots'.length = slots.length := by
      rw [length_parameters_ofReadings h.fit hslots', hslots]
      exact Nat.min_eq_right (h.length_le slots hslots)
    have hasks (i : Nat) (d : String) :
        slots'[i]? = some (some d) ↔ slots[i]? = some (some d) := by
      have hiff := h.asks_readBack_iff (r := .parameter i d)
      simpa only [Asks, hslots, hslots', Option.some.injEq, exists_eq_left'] using hiff
    rw [hslots', eq_of_getElem?_iff hlength hasks]

/-- The strings come back in ascending order, each of them once. -/
theorem strings_readBack (h : p.Regular) : p.readBack.strings = p.tidied.strings := by
  refine List.Pairwise.eq_of_mem_iff ?_ (pairwise_strings_tidied p) fun s ↦ ?_
  · refine pairwise_lt_of_nodup (.sublist (eraseDups_sublist _) ?_) (nodup_eraseDups _)
    exact pairwise_literals (pairwise_not_lt_mergeSort _)
  · rw [mem_strings_tidied]
    exact h.asks_readBack_iff (r := .string s)

/-- **What is read back is the tidied pattern.** -/
theorem readBack_eq (h : p.Regular) : p.readBack = p.tidied := by
  have hreturnType : p.readBack.returnType = p.tidied.returnType :=
    Option.ext fun d ↦ h.asks_readBack_iff (r := .returnType d)
  have haccessFlags : p.readBack.accessFlags = p.tidied.accessFlags :=
    Option.ext fun mask ↦ h.asks_readBack_iff (r := .accessFlags mask)
  have hparameters := h.parameters_readBack
  have hstrings := h.strings_readBack
  cases hp : p.readBack
  rw [hp] at hreturnType haccessFlags hparameters hstrings
  cases hreturnType
  cases haccessFlags
  cases hparameters
  cases hstrings
  rfl

/-- A regular pattern that is written again is read back tidied. -/
theorem parse_rewritten (h : p.Regular) : parse p.rewritten.text = .ok p.tidied := by
  rw [rewritten, parse_render, ← readBack, h.readBack_eq]

/-- It is written as the tidied pattern is. -/
theorem text_rewritten (h : p.Regular) : p.rewritten.text = p.tidied.writtenText := by
  rw [rewritten, text_render, ← readBack, h.readBack_eq]

/-- Nothing is reported. -/
theorem skipped_rewritten (h : p.Regular) : p.rewritten.skipped = [] :=
  skipped_render_eq_nil (fun _ ↦ h.exists_read) _

/-- No flags are left out. -/
theorem omittedAccessFlags_rewritten (h : p.Regular) : p.rewritten.omittedAccessFlags = 0 := by
  rw [rewritten, omittedAccessFlags_render]
  cases hmask : (readings p.features).findSome? Reading.mask? with
  | none => rfl
  | some mask =>
    obtain ⟨r, hr, heq⟩ := List.exists_of_findSome?_eq_some hmask
    obtain rfl := Reading.mask?_eq_some_iff.1 heq
    show AccessFlag.unknownBits mask = 0
    rw [← h.and_knownBits mask (h.mem_readings_iff.1 hr), AccessFlag.unknownBits_and_knownBits]

end Regular

/-- **A pattern that has been read settles when it is written again.** All its features are well
formed, none is reported and no flags are left out. What is read back is the pattern with its
strings sorted and kept once, and without positions if none of them has a type; and this pattern is
written as the same text. -/
theorem parse_rewritten_of_parse (text : String) (p : Pattern) (h : parse text = .ok p) :
    (∀ f ∈ p.features, ∃ r, f.read = .ok r) ∧ p.rewritten.skipped = [] ∧
      p.rewritten.omittedAccessFlags = 0 ∧ parse p.rewritten.text = .ok p.tidied ∧
      p.tidied.rewritten.text = p.rewritten.text := by
  have hregular := regular_of_parse h
  refine ⟨fun f ↦ hregular.exists_read, hregular.skipped_rewritten,
    hregular.omittedAccessFlags_rewritten, hregular.parse_rewritten, ?_⟩
  rw [hregular.text_rewritten, hregular.tidied.text_rewritten, tidied_tidied]

/-- A text with its sections in another order than they are written in, flags and strings that come
twice and positions without a type. -/
def untidyText : String :=
  "fingerprint\x7b strings(\"b\", \"a$\",\"b\")\n\n" ++
    "accessFlags(FINAL, AccessFlags.PUBLIC,FINAL)\n" ++
    "\tparameters ( \"\", \"I\", \"\" )\r\n returns(\"\") \x7d\n"

/-- What it is read as. -/
def untidyPattern : Pattern :=
  ⟨some "", some 17, some [none, some "I", none], ["b", "a$", "b"]⟩

/-- The case of a text that is never written. -/
theorem parse_rewritten_of_parse_untidyText :
    parse untidyText = .ok untidyPattern ∧
    (∀ f ∈ untidyPattern.features, ∃ r, f.read = .ok r) ∧ untidyPattern.rewritten.skipped = [] ∧
      untidyPattern.rewritten.omittedAccessFlags = 0 ∧
      parse untidyPattern.rewritten.text = .ok untidyPattern.tidied ∧
      untidyPattern.tidied.rewritten.text = untidyPattern.rewritten.text := by
  have h : parse untidyText = .ok untidyPattern := by decide +kernel
  exact ⟨h, parse_rewritten_of_parse untidyText untidyPattern h⟩

example : untidyPattern.tidied =
    ⟨some "", some 17, some [none, some "I", none], ["a$", "b"]⟩ := by
  cbv

end Pattern

end MethodFingerprint
