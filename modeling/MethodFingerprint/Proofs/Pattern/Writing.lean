import MethodFingerprint.Proofs.Pattern.Features

/-!
# Writing the pattern that is read back

A text is written from features, but nothing of them shows in it that is not in the pattern which is
read back: the text is this pattern, written section by section (`Pattern.text_render`). Features of
which the same pattern is read back are therefore written as the same text.
-/

namespace MethodFingerprint

namespace Pattern

variable {g : Gathering} {rs : List Reading}

/-- The sections a pattern is written with. An open position is written as an empty type. -/
def writtenSections (p : Pattern) : List (List Char) :=
  (p.returnType.toList.map fun d ↦ sectionText .returns [Literal.quote d.toList]) ++
    (p.accessFlags.toList.map fun mask ↦ sectionText .accessFlags (flagArguments mask)) ++
    (p.parameters.toList.map fun slots ↦
      sectionText .parameters (slots.map fun slot ↦ Literal.quote (slot.getD "").toList)) ++
    (if p.strings.isEmpty then []
      else [sectionText .strings (p.strings.map fun s ↦ Literal.quote s.toList)])

/-- A pattern as a text. -/
def writtenText (p : Pattern) : String :=
  String.ofList (textOfSections p.writtenSections)

/-- Bits without a flag are not written. -/
theorem flagArguments_and_knownBits (mask : UInt32) :
    flagArguments (mask &&& AccessFlag.knownBits) = flagArguments mask := by
  rw [flagArguments, AccessFlag.decode_and_knownBits, flagArguments]

/-- An open position is written as an empty type. -/
theorem getD_slotOfType (descriptor : String) : (slotOfType descriptor).getD "" = descriptor := by
  by_cases h : descriptor = ""
  · rw [slotOfType, if_pos h, h]
    rfl
  · rw [slotOfType, if_neg h]
    rfl

/-- The positions that are read back are written as they were. -/
theorem map_quote_slotOfType (parameterCount : Option Nat) (parameters : List (Nat × String)) :
    (((types parameterCount parameters).map slotOfType).map fun slot ↦
      Literal.quote (slot.getD "").toList) = parameterArguments parameterCount parameters := by
  simp only [types, parameterArguments, List.map_map, Function.comp_def, getD_slotOfType]

/-- **The sections are those of the pattern that is read back.** -/
theorem sections_eq_writtenSections (h : g.Holds rs) (parameterCount : Option Nat) :
    sections parameterCount g = (ofReadings parameterCount rs).writtenSections := by
  have hreturnType : (ofReadings parameterCount rs).returnType = g.returnType :=
    h.returnType_eq.symm
  have haccessFlags : (ofReadings parameterCount rs).accessFlags =
      g.accessFlags.map (· &&& AccessFlag.knownBits) := by
    rw [h.accessFlags_eq]
    rfl
  have hparameters : (ofReadings parameterCount rs).parameters =
      if g.parameters.isEmpty then none
      else some ((types parameterCount g.parameters).map slotOfType) :=
    (parameters_eq h parameterCount).symm
  have hstrings : (ofReadings parameterCount rs).strings = g.strings.reverse := h.strings_eq.symm
  rw [writtenSections, hreturnType, haccessFlags, hparameters, hstrings, sections]
  congr 1
  · congr 1
    · congr 1
      cases g.accessFlags with
      | none => rfl
      | some mask =>
        exact congrArg (fun flags ↦ [sectionText .accessFlags flags])
          (flagArguments_and_knownBits mask).symm
    · cases g.parameters.isEmpty with
      | true => rfl
      | false =>
        exact congrArg (fun slots ↦ [sectionText .parameters slots])
          (map_quote_slotOfType parameterCount g.parameters).symm
  · rw [List.isEmpty_reverse]

/-- **What is written is the pattern that is read back.** -/
theorem text_render (parameterCount : Option Nat) (features : List Feature) :
    (render parameterCount features).text =
      (ofReadings parameterCount (readings features)).writtenText := by
  rw [writtenText, ← sections_eq_writtenSections (Gathering.holds_ofFeatures features)]
  rfl

/-- The bits that are left out are the unknown ones of the first mask. -/
theorem omittedAccessFlags_render (parameterCount : Option Nat) (features : List Feature) :
    (render parameterCount features).omittedAccessFlags =
      (((readings features).findSome? Reading.mask?).map AccessFlag.unknownBits).getD 0 := by
  rw [← (Gathering.holds_ofFeatures features).accessFlags_eq]
  rfl

end Pattern

end MethodFingerprint
