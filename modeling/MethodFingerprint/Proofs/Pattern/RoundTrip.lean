import MethodFingerprint.Proofs.AccessFlag
import MethodFingerprint.Proofs.Pattern.Clauses
import MethodFingerprint.Proofs.Pattern.Gathering

/-!
# A written pattern read back

The writer and the reader meet in the clauses. A gathering is written as the clauses of its sections
(`Pattern.sections_eq`); each of them is accepted, whatever came before it belonging to another
section, and says again what was gathered (`Pattern.addClauses_clauses`). What a pattern does not
hold are the bits of a mask without a flag, and the difference between a position without a type and
one whose type is empty.

`Pattern.exists_parse_render` says this of the features themselves.
-/

namespace MethodFingerprint

namespace Pattern

variable {d : Draft} {parameterCount : Option Nat} {g : Gathering}

/-! ### The clauses of a gathering -/

/-- The types of the positions that are written, empty where none is known. -/
def types (parameterCount : Option Nat) (parameters : List (Nat × String)) : List String :=
  (List.range (arity parameterCount parameters)).map fun index ↦
    (parameters.lookup index).getD ""

/-- A flag as an argument. -/
def flagArgument (flag : AccessFlag) : Argument := .word (flagQualifier ++ flag.name.toList)

/-- A value as an argument. -/
def valueArgument (value : String) : Argument := .literal value.toList

/-- The clauses that a gathering is written as. -/
def clauses (parameterCount : Option Nat) (g : Gathering) : List Clause :=
  (g.returnType.toList.map fun descriptor ↦ ⟨.returns, [valueArgument descriptor]⟩) ++
    (g.accessFlags.toList.map fun mask ↦
      ⟨.accessFlags, (AccessFlag.decode mask).map flagArgument⟩) ++
    (if g.parameters.isEmpty then []
      else [⟨.parameters, (types parameterCount g.parameters).map valueArgument⟩]) ++
    (if g.strings.isEmpty then [] else [⟨.strings, g.strings.reverse.map valueArgument⟩])

/-- **The sections are the clauses**, written. -/
theorem sections_eq (parameterCount : Option Nat) (g : Gathering) :
    sections parameterCount g = (clauses parameterCount g).map Clause.text := by
  have hvalue (value : String) : (valueArgument value).text = Literal.quote value.toList := rfl
  have hflag (flag : AccessFlag) :
      (flagArgument flag).text = flagQualifier ++ flag.name.toList := rfl
  simp only [sections, clauses, List.map_append, List.map_map, apply_ite (List.map Clause.text),
    List.map_nil, List.map_cons, parameterArguments, types, flagArguments, Clause.text,
    Function.comp_def, hvalue, hflag]

theorem isWritable_valueArgument (value : String) : (valueArgument value).IsWritable := trivial

theorem isWritable_flagArgument (flag : AccessFlag) : (flagArgument flag).IsWritable := by
  have hflag : IsFlag (flagQualifier ++ flag.name.toList) flag := Or.inr rfl
  cases hflag.isText with
  | word hne hquote hword => exact ⟨hne, hquote, hword⟩

/-- **Every clause reads back.** -/
theorem isWritable_of_mem_clauses {c : Clause} (hc : c ∈ clauses parameterCount g) :
    c.IsWritable := by
  have hvalues (values : List String) : ∀ a ∈ values.map valueArgument, a.IsWritable :=
    List.forall_mem_map.2 fun value _ ↦ isWritable_valueArgument value
  simp only [clauses, List.mem_append] at hc
  rcases hc with ((hc | hc) | hc) | hc
  · obtain ⟨descriptor, -, rfl⟩ := List.mem_map.1 hc
    exact hvalues [descriptor]
  · obtain ⟨mask, -, rfl⟩ := List.mem_map.1 hc
    exact List.forall_mem_map.2 fun flag _ ↦ isWritable_flagArgument flag
  · split at hc
    · cases hc
    · rw [List.mem_singleton.1 hc]
      exact hvalues _
  · split at hc
    · cases hc
    · rw [List.mem_singleton.1 hc]
      exact hvalues _

/-! ### What the clauses say -/

/-- Values are the meaning of their arguments. -/
theorem forall₂_valueArgument (values : List String) :
    List.Forall₂ IsValue (values.map valueArgument) values :=
  List.forall₂_map_left_iff.2 (List.forall₂_same.2 fun _ _ ↦ rfl)

/-- Flags are the meaning of their arguments. -/
theorem forall₂_flagArgument (fs : List AccessFlag) :
    List.Forall₂ IsFlagWord (fs.map flagArgument) fs :=
  List.forall₂_map_left_iff.2 (List.forall₂_same.2 fun _ _ ↦
    ⟨_, rfl, flagOfWord?_eq_some_iff.2 (Or.inr rfl)⟩)

/-- A clause that makes a statement is added. -/
theorem addClauses_of_makes {name : List Char} {as : List Argument} {st : Statement}
    (h : Makes name as st) (hfree : d.has st.kind = false) :
    d.addClauses [⟨st.kind, as⟩] = .ok (d.put st) := by
  obtain rfl := h.name_eq
  rw [Draft.addClauses_singleton]
  exact Draft.add_eq_ok_iff.2 ⟨st, h, hfree, rfl⟩

/-- No more positions are written than a pattern may have. -/
theorem length_types_le (parameterCount : Option Nat) (parameters : List (Nat × String)) :
    (types parameterCount parameters).length ≤ maxParameters := by
  rw [types, List.length_map, List.length_range]
  exact Nat.min_le_right _ _

/-! ### Sections that may be missing -/

theorem addClauses_returns (hd : d.returnType = none) (descriptor : Option String) :
    d.addClauses (descriptor.toList.map fun t ↦ ⟨.returns, [valueArgument t]⟩) =
      .ok { d with returnType := descriptor } := by
  cases descriptor with
  | none =>
    cases d
    cases hd
    rfl
  | some t =>
    have hfree : d.has .returns = false := congrArg Option.isSome hd
    have hadd := addClauses_of_makes (.returns (forall₂_valueArgument [t])) hfree
    exact hadd

/-- The bits without a flag are lost. -/
theorem addClauses_accessFlags (hd : d.accessFlags = none) (mask : Option UInt32) :
    d.addClauses (mask.toList.map fun m ↦
        ⟨.accessFlags, (AccessFlag.decode m).map flagArgument⟩) =
      .ok { d with accessFlags := mask.map fun m ↦ m &&& AccessFlag.knownBits } := by
  cases mask with
  | none =>
    cases d
    cases hd
    rfl
  | some m =>
    rw [Option.map_some, ← AccessFlag.encode_decode]
    have hfree : d.has .accessFlags = false := congrArg Option.isSome hd
    have hflags := forall₂_flagArgument (AccessFlag.decode m)
    have hadd := addClauses_of_makes (.accessFlags hflags) hfree
    exact hadd

theorem addClauses_parameters (hd : d.parameters = none) (missing : Bool) {values : List String}
    (hlen : values.length ≤ maxParameters) :
    d.addClauses (if missing then [] else [⟨.parameters, values.map valueArgument⟩]) =
      .ok { d with parameters := if missing then none else some (values.map slotOfType) } := by
  cases missing with
  | true =>
    cases d
    cases hd
    rfl
  | false =>
    have hfree : d.has .parameters = false := congrArg Option.isSome hd
    have hadd := addClauses_of_makes (.parameters (forall₂_valueArgument values) hlen) hfree
    exact hadd

theorem addClauses_strings (hd : d.strings = none) (missing : Bool) (values : List String) :
    d.addClauses (if missing then [] else [⟨.strings, values.map valueArgument⟩]) =
      .ok { d with strings := if missing then none else some values } := by
  cases missing with
  | true =>
    cases d
    cases hd
    rfl
  | false =>
    have hfree : d.has .strings = false := congrArg Option.isSome hd
    have hadd := addClauses_of_makes (.strings (forall₂_valueArgument values)) hfree
    exact hadd

/-- **The clauses say what was gathered**, one section after the other. -/
theorem addClauses_clauses (parameterCount : Option Nat) (g : Gathering) :
    Draft.addClauses {} (clauses parameterCount g) = .ok
      { returnType := g.returnType
        accessFlags := g.accessFlags.map fun mask ↦ mask &&& AccessFlag.knownBits
        parameters := if g.parameters.isEmpty then none
          else some ((types parameterCount g.parameters).map slotOfType)
        strings := if g.strings.isEmpty then none else some g.strings.reverse } := by
  have hlen := length_types_le parameterCount g.parameters
  rw [clauses, List.append_assoc, List.append_assoc,
    Draft.addClauses_append (addClauses_returns rfl g.returnType),
    Draft.addClauses_append (addClauses_accessFlags rfl g.accessFlags),
    Draft.addClauses_append (addClauses_parameters rfl g.parameters.isEmpty hlen),
    addClauses_strings rfl]

/-- **A written gathering reads back.** -/
theorem parseChars_textOfSections_sections (parameterCount : Option Nat) (g : Gathering) :
    parseChars (textOfSections (sections parameterCount g)) = .ok
      { returnType := g.returnType
        accessFlags := g.accessFlags.map fun mask ↦ mask &&& AccessFlag.knownBits
        parameters := if g.parameters.isEmpty then none
          else some ((types parameterCount g.parameters).map slotOfType)
        strings := g.strings.reverse } := by
  rw [sections_eq, parseChars_textOfSections (fun c hc ↦ isWritable_of_mem_clauses hc)
    (addClauses_clauses parameterCount g), Draft.pattern]
  cases g.strings <;> rfl

/-! ### Features -/

/-- The number of positions is the least bound of everything that asks for positions. -/
theorem foldr_le_iff {parameters : List (Nat × String)} {n k : Nat} :
    parameters.foldr (fun p n ↦ max (p.1 + 1) n) n ≤ k ↔
      n ≤ k ∧ ∀ i ∈ parameters.map Prod.fst, i + 1 ≤ k := by
  induction parameters with
  | nil => simp
  | cons p parameters ih =>
    rw [List.foldr_cons, Nat.max_le, ih, List.map_cons, List.forall_mem_cons]
    exact and_left_comm

/-- **As many positions are written** as the highest one and the known number of parameters ask
for. -/
theorem arity_eq {parameters : List (Nat × String)} {highest : Nat}
    (hhighest : (parameters.map Prod.fst).max? = some highest) :
    arity parameterCount parameters =
      min maxParameters (max (parameterCount.getD 0) (highest + 1)) := by
  obtain ⟨hmem, hle⟩ := List.max?_eq_some_iff.1 hhighest
  rw [arity, Nat.min_comm]
  congr 1
  refine Nat.le_antisymm ?_ ?_
  · -- no position asks for more than the highest one
    rw [foldr_le_iff]
    refine ⟨Nat.le_max_left _ _, fun i hi ↦ ?_⟩
    exact Nat.le_trans (Nat.succ_le_succ (hle i hi)) (Nat.le_max_right _ _)
  · obtain ⟨hn, hall⟩ := foldr_le_iff.1 (Nat.le_refl (parameters.foldr
      (fun p n ↦ max (p.1 + 1) n) (parameterCount.getD 0)))
    exact Nat.max_le.2 ⟨hn, hall highest hmem⟩

/-- Lists of the same numbers have the same highest number. -/
theorem max?_eq_max? {l l' : List Nat} (h : ∀ i, i ∈ l ↔ i ∈ l') : l.max? = l'.max? := by
  cases hmax : l'.max? with
  | none =>
    rw [List.max?_eq_none_iff] at hmax ⊢
    refine List.eq_nil_iff_forall_not_mem.2 fun i hi ↦ ?_
    rw [h, hmax] at hi
    cases hi
  | some highest =>
    rw [List.max?_eq_some_iff] at hmax ⊢
    simpa only [h] using hmax

/-- The positions with a type, as the highest of them sees them, are those of the features. -/
theorem max?_parameters_eq {rs : List Reading} (h : g.Holds rs) :
    (g.parameters.map Prod.fst).max? = (rs.filterMap Reading.index?).max? :=
  max?_eq_max? h.mem_iff

/-- A position whose type is empty is open. -/
theorem slotOfType_getD (descriptor : Option String) :
    slotOfType (descriptor.getD "") = descriptor.filter (· ≠ "") := by
  cases descriptor with
  | none => rfl
  | some t =>
    by_cases ht : t = ""
    · rw [ht]
      rfl
    · simp [slotOfType, Option.filter, ht]

/-- **The positions of a written pattern**: none without a type, and otherwise as many as are asked
for, each with the first type given for it. -/
theorem parameters_eq {rs : List Reading} (h : g.Holds rs) (parameterCount : Option Nat) :
    (if g.parameters.isEmpty then none
        else some ((types parameterCount g.parameters).map slotOfType)) =
      (rs.filterMap Reading.index?).max?.map fun highest ↦
        (List.range (min maxParameters (max (parameterCount.getD 0) (highest + 1)))).map fun i ↦
          (rs.findSome? (Reading.typeAt? i)).filter (· ≠ "") := by
  rw [← max?_parameters_eq h]
  cases hmax : (g.parameters.map Prod.fst).max? with
  | none =>
    rw [List.max?_eq_none_iff, List.map_eq_nil_iff] at hmax
    rw [hmax]
    rfl
  | some highest =>
    have hne : g.parameters.isEmpty = false := by
      rw [List.isEmpty_eq_false_iff]
      intro hnil
      rw [hnil] at hmax
      cases hmax
    rw [hne, types, arity_eq hmax, List.map_map]
    refine congrArg some (List.map_congr_left fun i _ ↦ ?_)
    show slotOfType ((g.parameters.lookup i).getD "") = _
    rw [h.lookup_eq, slotOfType_getD]

/-- **A written pattern reads back.** Whatever the features are, the pattern written from them is
read, and it holds the first return type, the first mask without the bits that no flag accounts for,
which are reported, the first type of each position and the distinct strings in order of first
occurrence. -/
theorem exists_parse_render (parameterCount : Option Nat) (features : List Feature) :
    ∃ p, parse (render parameterCount features).text = .ok p ∧
      p.returnType = (readings features).findSome? Reading.returnType? ∧
      p.accessFlags = ((readings features).findSome? Reading.mask?).map
        (· &&& AccessFlag.knownBits) ∧
      (render parameterCount features).omittedAccessFlags =
        (((readings features).findSome? Reading.mask?).map
          (· &&& ~~~AccessFlag.knownBits)).getD 0 ∧
      p.parameters = ((readings features).filterMap Reading.index?).max?.map (fun highest ↦
        (List.range (min 255 (max (parameterCount.getD 0) (highest + 1)))).map fun i ↦
          ((readings features).findSome? (Reading.typeAt? i)).filter (· ≠ "")) ∧
      p.strings = ((readings features).filterMap Reading.literal?).eraseDups := by
  have h := Gathering.holds_ofFeatures features
  have hparse := parseChars_textOfSections_sections parameterCount (Gathering.ofFeatures features)
  rw [parameters_eq h, h.returnType_eq, h.accessFlags_eq, h.strings_eq] at hparse
  -- the text is read as the characters it was made of
  rw [← String.toList_ofList (l := textOfSections _)] at hparse
  refine ⟨_, hparse, rfl, rfl, ?_, rfl, rfl⟩
  rw [render, h.accessFlags_eq]
  rfl

end Pattern

end MethodFingerprint
