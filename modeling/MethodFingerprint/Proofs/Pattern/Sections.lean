import MethodFingerprint.Proofs.Pattern.Grammar

/-!
# The sections of a pattern

A line is taken apart into a name and arguments, and these are added to what has been said before.
Both steps are settled here once and for all, for a single line: what it takes for a line to be read
(`Pattern.Draft.addLine_cases`) and that this is enough (`Pattern.Draft.addLine_of_blank`,
`Pattern.Draft.addLine_of_lineSays`). A line may say what it says unless the draft has been told by
a section of the same kind (`Pattern.Draft.has`), and then the draft holds the statement
(`Pattern.Draft.put`).

The arguments that are read are tied to the grammar by what they mean. A literal means its value and
a word the flag it names (`Pattern.IsValue`, `Pattern.IsFlagWord`), so lists of literals and of
flags in a text are lists of arguments that mean values and flags (`Pattern.arguments_comp_iff`).
-/

namespace MethodFingerprint

open Text

theorem AccessFlag.ofName?_eq_some_iff {name : String} {flag : AccessFlag} :
    ofName? name = some flag ↔ name = flag.name := by
  constructor
  · intro h
    have hname := List.find?_some h
    exact (beq_iff_eq.1 hname).symm
  · rintro rfl
    exact ofName?_name flag

namespace Pattern

/-! ### Names of sections -/

/-- **A section is found under its name.** -/
theorem Section.ofName?_name (s : Section) : Section.ofName? s.name.toList = some s := by
  cases s <;> decide

theorem Section.ofName?_eq_some_iff {name : List Char} {s : Section} :
    Section.ofName? name = some s ↔ name = s.name.toList := by
  constructor
  · intro h
    have hname := List.find?_some h
    exact (beq_iff_eq.1 hname).symm
  · rintro rfl
    exact ofName?_name s

/-- The name of a section is a word. -/
theorem Section.trim_name (s : Section) : trim s.name.toList = s.name.toList := by
  cases s <;> decide

/-- The name of a section starts with a letter and has no parenthesis. -/
theorem Section.exists_name_eq_cons (s : Section) :
    ∃ c cs, s.name.toList = c :: cs ∧ isBlank c = false ∧ '(' ∉ c :: cs ∧ '\n' ∉ c :: cs := by
  cases s
  · exact ⟨'r', "eturns".toList, by decide⟩
  · exact ⟨'a', "ccessFlags".toList, by decide⟩
  · exact ⟨'p', "arameters".toList, by decide⟩
  · exact ⟨'s', "trings".toList, by decide⟩

/-! ### What arguments mean -/

/-- A literal means its value. -/
def IsValue (a : Argument) (value : String) : Prop :=
  a = .literal value.toList

/-- A word means the flag it names. -/
def IsFlagWord (a : Argument) (flag : AccessFlag) : Prop :=
  ∃ word, a = .word word ∧ flagOfWord? word = some flag

variable {as : List Argument} {s text : List Char}

/-- **A word names a flag** by its name, which may be qualified. -/
theorem flagOfWord?_eq_some_iff {flag : AccessFlag} :
    flagOfWord? text = some flag ↔ IsFlag text flag := by
  have hofList (s : List Char) : String.ofList s = flag.name ↔ s = flag.name.toList := by
    rw [← String.toList_inj, String.toList_ofList]
  rw [flagOfWord?, AccessFlag.ofName?_eq_some_iff, IsFlag]
  cases hafter : afterHead? flagQualifier text with
  | none =>
    have hqualified : text ≠ "AccessFlags.".toList ++ flag.name.toList := by
      rintro rfl
      rw [show "AccessFlags.".toList = flagQualifier from rfl, afterHead?_append] at hafter
      cases hafter
    rw [Option.getD_none, hofList, or_iff_left hqualified]
  | some rest =>
    rw [afterHead?_eq_some] at hafter
    have hplain : text ≠ flag.name.toList := by
      -- no flag has a name that starts like a qualified one
      have hnone : afterHead? flagQualifier flag.name.toList = none := by cases flag <;> decide
      rintro rfl
      rw [afterHead?_eq_some.2 hafter] at hnone
      cases hnone
    rw [Option.getD_some, hofList, or_iff_right hplain, hafter]
    exact (List.append_cancel_left_eq _ _ _).symm ▸ Iff.rfl

/-- The word of a flag is an argument. -/
theorem IsFlag.isText {flag : AccessFlag} (h : IsFlag text flag) :
    Argument.IsText text (.word text) := by
  have hne : flag.name.toList.isEmpty = false := by cases flag <;> rfl
  have hquote : (flag.name.toList.head? == some '"') = false := by cases flag <;> rfl
  have hword : flag.name.toList.all isWordChar = true := by cases flag <;> rfl
  have hqualifier : "AccessFlags.".toList.all isWordChar = true := rfl
  rw [List.all_eq_true] at hword hqualifier
  rcases h with rfl | rfl
  · exact .word (List.isEmpty_eq_false_iff.1 hne) (beq_eq_false_iff_ne.1 hquote) hword
  · have hhead : "AccessFlags.".toList.head? = some 'A' := rfl
    refine .word (List.cons_ne_nil _ _) ?_ (List.forall_mem_append.2 ⟨hqualifier, hword⟩)
    rw [List.head?_append, hhead, Option.some_or]
    decide

/-- Literals in a text are arguments that mean values. -/
theorem comp_isValue : Relation.Comp Argument.IsText IsValue = IsLiteral := by
  ext text value
  constructor
  · rintro ⟨a, ha, rfl⟩
    cases ha with
    | literal h => exact ⟨_, h, rfl⟩
  · rintro ⟨inner, h, rfl⟩
    exact ⟨_, .literal h, rfl⟩

/-- Flags in a text are arguments that name flags. -/
theorem comp_isFlagWord : Relation.Comp Argument.IsText IsFlagWord = IsFlag := by
  ext text flag
  constructor
  · rintro ⟨a, ha, word, rfl, hword⟩
    cases ha with
    | word hne hquote hall => exact flagOfWord?_eq_some_iff.1 hword
  · intro h
    exact ⟨_, h.isText, text, rfl, flagOfWord?_eq_some_iff.2 h⟩

/-- **The values of literals** are read off exactly if there is nothing else. -/
theorem literals_eq_ok_iff {s : Section} {values : List String} :
    literals s as = .ok values ↔ List.Forall₂ IsValue as values := by
  induction as generalizing values with
  | nil => rw [literals, List.forall₂_nil_left_iff, Except.ok.injEq, eq_comm]
  | cons a as ih =>
    rw [List.forall₂_cons_left_iff]
    cases a with
    | word text =>
      refine iff_of_false (fun h ↦ by cases h) ?_
      rintro ⟨value, -, h, -⟩
      cases h
    | literal value =>
      rw [literals, map_eq_ok_iff]
      constructor
      · rintro ⟨values, h, rfl⟩
        refine ⟨_, _, ?_, ih.1 h, rfl⟩
        rw [IsValue, String.toList_ofList]
      · rintro ⟨value', values, hvalue, h, rfl⟩
        cases hvalue
        exact ⟨values, ih.2 h, by rw [String.ofList_toList]⟩

/-- **The flags of words** are read off exactly if every argument names one. -/
theorem flags_eq_ok_iff {fs : List AccessFlag} :
    flags as = .ok fs ↔ List.Forall₂ IsFlagWord as fs := by
  induction as generalizing fs with
  | nil => rw [flags, List.forall₂_nil_left_iff, Except.ok.injEq, eq_comm]
  | cons a as ih =>
    rw [List.forall₂_cons_left_iff]
    cases a with
    | literal value =>
      refine iff_of_false (fun h ↦ by cases h) ?_
      rintro ⟨flag, -, ⟨word, h, -⟩, -⟩
      cases h
    | word text =>
      rw [flags]
      cases hword : flagOfWord? text with
      | none =>
        refine iff_of_false (fun h ↦ by cases h) ?_
        rintro ⟨flag, -, ⟨word, h, hflag⟩, -⟩
        cases h
        rw [hword] at hflag
        cases hflag
      | some flag =>
        dsimp only
        rw [map_eq_ok_iff]
        constructor
        · rintro ⟨fs, h, rfl⟩
          exact ⟨flag, fs, ⟨text, rfl, hword⟩, ih.1 h, rfl⟩
        · rintro ⟨flag', fs, ⟨word, h, hflag⟩, hfs, rfl⟩
          cases h
          rw [hword] at hflag
          cases hflag
          exact ⟨fs, ih.2 hfs, rfl⟩

/-- **Arguments are read with their meaning** exactly as things that mean it are listed. The empty
word means nothing. -/
theorem exists_readArguments_iff {β : Type} {R : Argument → β → Prop} {bs : List β}
    (hR : ∀ b, ¬R (.word []) b) :
    (∃ as, readArguments false s = .ok as ∧ List.Forall₂ R as bs) ↔
      Arguments (Relation.Comp Argument.IsText R) s bs := by
  have hword {as : List Argument} (h : List.Forall₂ R as bs) : .word [] ∉ as := by
    intro hmem
    induction h with
    | nil => cases hmem
    | cons hab _ ih =>
      rcases List.mem_cons.1 hmem with rfl | hmem
      · exact hR _ hab
      · exact ih hmem
  rw [arguments_comp_iff]
  exact exists_congr fun as ↦ and_congr_left fun h ↦ readArguments_eq_ok_iff (hword h)

/-! ### What sections say -/

/-- A name and arguments **make** a statement. -/
inductive Makes : List Char → List Argument → Statement → Prop
  | returns {as : List Argument} {type : String} (h : List.Forall₂ IsValue as [type]) :
      Makes "returns".toList as (.returns type)
  | accessFlags {as : List Argument} {flags : List AccessFlag}
      (h : List.Forall₂ IsFlagWord as flags) : Makes "accessFlags".toList as (.accessFlags flags)
  | parameters {as : List Argument} {types : List String} (h : List.Forall₂ IsValue as types)
      (hlen : types.length ≤ 255) : Makes "parameters".toList as (.parameters types)
  | strings {as : List Argument} {values : List String} (h : List.Forall₂ IsValue as values) :
      Makes "strings".toList as (.strings values)

variable {name : List Char} {st : Statement}

theorem Makes.name_eq (h : Makes name as st) : name = st.kind.name.toList := by
  cases h <;> rfl

/-- **A section says** what its name and its arguments, as they are read, make. -/
theorem exists_makes_iff :
    (∃ as, readArguments false s = .ok as ∧ Makes name as st) ↔ Says name s st := by
  have hvalue (value : String) : ¬IsValue (.word []) value := fun h ↦ by cases h
  have hflag (flag : AccessFlag) : ¬IsFlagWord (.word []) flag := by
    rintro ⟨word, h, hword⟩
    cases h
    revert hword
    cases flag <;> decide
  have hvalues (values : List String) :
      (∃ as, readArguments false s = .ok as ∧ List.Forall₂ IsValue as values) ↔
        Arguments IsLiteral s values := comp_isValue ▸ exists_readArguments_iff hvalue
  have hflags (flags : List AccessFlag) :
      (∃ as, readArguments false s = .ok as ∧ List.Forall₂ IsFlagWord as flags) ↔
        Arguments IsFlag s flags := comp_isFlagWord ▸ exists_readArguments_iff hflag
  constructor
  · rintro ⟨as, hread, hmakes⟩
    cases hmakes with
    | returns h => exact .returns ((hvalues _).1 ⟨as, hread, h⟩)
    | accessFlags h => exact .accessFlags ((hflags _).1 ⟨as, hread, h⟩)
    | parameters h hlen => exact .parameters ((hvalues _).1 ⟨as, hread, h⟩) hlen
    | strings h => exact .strings ((hvalues _).1 ⟨as, hread, h⟩)
  · intro hsaid
    cases hsaid with
    | returns h =>
      obtain ⟨as, hread, h⟩ := (hvalues _).2 h
      exact ⟨as, hread, .returns h⟩
    | accessFlags h =>
      obtain ⟨as, hread, h⟩ := (hflags _).2 h
      exact ⟨as, hread, .accessFlags h⟩
    | parameters h hlen =>
      obtain ⟨as, hread, h⟩ := (hvalues _).2 h
      exact ⟨as, hread, .parameters h hlen⟩
    | strings h =>
      obtain ⟨as, hread, h⟩ := (hvalues _).2 h
      exact ⟨as, hread, .strings h⟩

/-- The statement of a section with the given arguments. -/
def statement? : Section → List Argument → Except LineFault Statement
  | .returns, [.literal value] => .ok (.returns (String.ofList value))
  | .returns, _ => .error .returnsArity
  | .accessFlags, as => (flags as).map .accessFlags
  | .parameters, as =>
    match literals .parameters as with
    | .error fault => .error fault
    | .ok types =>
      if types.length > maxParameters then .error .tooManyParameters else .ok (.parameters types)
  | .strings, as => (literals .strings as).map .strings

/-- **A statement is worked out** if the arguments make it. -/
theorem Makes.statement?_eq (h : Makes name as st) : statement? st.kind as = .ok st := by
  cases h with
  | returns h =>
    obtain ⟨a, as, ha, hnil, rfl⟩ := List.forall₂_cons_right_iff.1 h
    obtain rfl := List.forall₂_nil_right_iff.1 hnil
    obtain rfl := ha
    rw [Statement.kind, statement?, String.ofList_toList]
  | accessFlags h => exact map_eq_ok_iff.2 ⟨_, flags_eq_ok_iff.2 h, rfl⟩
  | parameters h hlen =>
    have hmax : ¬_ > maxParameters := Nat.not_lt.2 hlen
    rw [Statement.kind, statement?, literals_eq_ok_iff.2 h]
    exact if_neg hmax
  | strings h => exact map_eq_ok_iff.2 ⟨_, literals_eq_ok_iff.2 h, rfl⟩

/-- **Whatever is worked out** is a statement the arguments make. -/
theorem makes_of_statement? {kind : Section} (h : statement? kind as = .ok st) :
    Makes kind.name.toList as st ∧ st.kind = kind := by
  unfold statement? at h
  split at h
  · rename_i value
    cases h
    refine ⟨.returns (.cons ?_ .nil), rfl⟩
    rw [IsValue, String.toList_ofList]
  · cases h
  · obtain ⟨fs, hfs, rfl⟩ := map_eq_ok_iff.1 h
    exact ⟨.accessFlags (flags_eq_ok_iff.1 hfs), rfl⟩
  · split at h
    · cases h
    · rename_i types htypes
      split at h
      · cases h
      · rename_i hlen
        cases h
        exact ⟨.parameters (literals_eq_ok_iff.1 htypes) (Nat.not_lt.1 hlen), rfl⟩
  · obtain ⟨values, hvalues, rfl⟩ := map_eq_ok_iff.1 h
    exact ⟨.strings (literals_eq_ok_iff.1 hvalues), rfl⟩

namespace Draft

variable {d d' : Draft}

/-- Whether a draft has been told something by a section of the given kind. -/
def has (d : Draft) : Section → Bool
  | .returns => d.returnType.isSome
  | .accessFlags => d.accessFlags.isSome
  | .parameters => d.parameters.isSome
  | .strings => d.strings.isSome

/-- A draft with a further statement. -/
def put (d : Draft) : Statement → Draft
  | .returns type => { d with returnType := some type }
  | .accessFlags flags => { d with accessFlags := some (AccessFlag.encode flags) }
  | .parameters types => { d with parameters := some (types.map slotOfType) }
  | .strings values => { d with strings := some values }

/-- **Adding a section** is working out its statement, unless a section of its kind has made one. -/
theorem add_eq (d : Draft) (kind : Section) (as : List Argument) :
    d.add ⟨kind.name.toList, as⟩ =
      if d.has kind then .error (.duplicateSection kind) else (statement? kind as).map d.put := by
  unfold add
  rw [Section.ofName?_name]
  cases kind with
  | returns =>
    refine ite_congr rfl (fun _ ↦ rfl) fun _ ↦ ?_
    rcases as with - | ⟨value | word, - | ⟨b, rest⟩⟩ <;> rfl
  | accessFlags =>
    refine ite_congr rfl (fun _ ↦ rfl) fun _ ↦ ?_
    rw [statement?]
    cases flags as <;> rfl
  | parameters =>
    refine ite_congr rfl (fun _ ↦ rfl) fun _ ↦ ?_
    rw [statement?]
    dsimp only
    cases literals .parameters as with
    | error => rfl
    | ok types =>
      dsimp only
      split <;> rfl
  | strings =>
    refine ite_congr rfl (fun _ ↦ rfl) fun _ ↦ ?_
    rw [statement?]
    cases literals .strings as <;> rfl

/-- **A statement is added** exactly if no section of its kind has made one. -/
theorem add_eq_ok_iff {l : SectionLine} : d.add l = .ok d' ↔
    ∃ st, Makes l.name l.arguments st ∧ d.has st.kind = false ∧ d' = d.put st := by
  obtain ⟨name, as⟩ := l
  constructor
  · intro h
    have hname : ∃ kind : Section, name = kind.name.toList := by
      cases hkind : Section.ofName? name with
      | none =>
        rw [add, hkind] at h
        cases h
      | some kind => exact ⟨kind, Section.ofName?_eq_some_iff.1 hkind⟩
    obtain ⟨kind, rfl⟩ := hname
    rw [add_eq] at h
    split at h
    · cases h
    · rename_i hfree
      obtain ⟨st, hst, rfl⟩ := map_eq_ok_iff.1 h
      obtain ⟨hmakes, rfl⟩ := makes_of_statement? hst
      exact ⟨st, hmakes, Bool.eq_false_iff.2 hfree, rfl⟩
  · rintro ⟨st, hmakes, hfree, rfl⟩
    obtain rfl : name = st.kind.name.toList := hmakes.name_eq
    rw [add_eq, if_neg (Bool.eq_false_iff.1 hfree)]
    exact map_eq_ok_iff.2 ⟨st, hmakes.statement?_eq, rfl⟩

end Draft

/-! ### Lines -/

variable {line before gap inner after : List Char}

/-- A line has nothing to say if it is blank, and only then. -/
theorem readLine_eq_ok_none_iff : readLine line = .ok none ↔ Blank line := by
  rw [← trim_eq_nil_iff]
  unfold readLine
  constructor
  · intro h
    split at h
    · assumption
    · split at h
      · cases h
      · split at h
        · cases h
        · obtain ⟨as, -, heq⟩ := map_eq_ok_iff.1 h
          cases heq
  · intro hnil
    rw [hnil]

/-- **A section is read off its line**, whatever blanks it is written with. -/
theorem readLine_section (hbefore : Blank before) (hgap : Blank gap) (hafter : Blank after)
    (kind : Section) (inner : List Char) :
    readLine (before ++ kind.name.toList ++ gap ++ '(' :: inner ++ ')' :: after) =
      (readArguments false inner).map fun as ↦ some ⟨kind.name.toList, as⟩ := by
  obtain ⟨c, cs, hname, hc, hparen, -⟩ := kind.exists_name_eq_cons
  -- the line is blanks around a text between a letter and a parenthesis
  have hline : before ++ kind.name.toList ++ gap ++ '(' :: inner ++ ')' :: after =
      before ++ (c :: (cs ++ gap ++ '(' :: inner) ++ [')']) ++ after := by
    rw [hname]
    simp
  have htrim := trim_blank_cons_concat_blank (s := cs ++ gap ++ '(' :: inner) hbefore hafter hc
    (d := ')') (by decide)
  -- the first parenthesis is behind the name and its blanks
  have hgap' : '(' ∉ gap := fun hmem ↦ absurd (hgap _ hmem) (by decide)
  have hsplit : splitFirst? '(' (c :: (cs ++ gap ++ '(' :: inner) ++ [')']) =
      some (kind.name.toList ++ gap, inner ++ [')']) := by
    refine splitFirst?_eq_some.2 ⟨?_, ?_⟩
    · rw [hname]
      simp
    · rw [hname, List.mem_append, not_or]
      exact ⟨hparen, hgap'⟩
  have htrimName : trim (kind.name.toList ++ gap) = kind.name.toList := by
    have hname' := kind.trim_name
    rw [hname, trim, trimStart_cons hc] at hname'
    rw [hname, trim, List.cons_append, trimStart_cons hc, ← List.cons_append, trimEnd_append hgap]
    exact hname'
  unfold readLine
  rw [hline, htrim]
  dsimp only [List.cons_append] at hsplit ⊢
  rw [hsplit]
  dsimp only
  rw [beforeLast?_concat]
  dsimp only
  rw [htrimName]

/-- **Whatever is read off a line** is written there with blanks around it. -/
theorem exists_of_readLine {l : SectionLine} (h : readLine line = .ok (some l)) :
    ∃ before gap inner after, Blank before ∧ Blank gap ∧ Blank after ∧
      line = before ++ l.name ++ gap ++ '(' :: inner ++ ')' :: after ∧
      readArguments false inner = .ok l.arguments := by
  obtain ⟨before, after, hbefore, hafter, hline⟩ := exists_eq_blank_trim_blank line
  unfold readLine at h
  split at h
  · cases h
  · rename_i c cs htrim
    split at h
    · cases h
    · rename_i name rest hsplit
      split at h
      · cases h
      · rename_i inner hlast
        obtain ⟨as, hread, heq⟩ := map_eq_ok_iff.1 h
        cases heq
        obtain ⟨before', gap, hbefore', hgap, hname⟩ := exists_eq_blank_trim_blank name
        obtain rfl := beforeLast?_eq_some_iff.1 hlast
        refine ⟨before ++ before', gap, inner, after, hbefore.append hbefore', hgap, hafter, ?_,
          hread⟩
        rw [htrim, (splitFirst?_eq_some.1 hsplit).1] at hline
        rw [hline]
        generalize trim name = word at hname
        rw [hname]
        simp

namespace Draft

variable {d d' : Draft} {st : Statement}

/-- A blank line adds nothing. -/
theorem addLine_of_blank (d : Draft) (h : Blank line) : d.addLine line = .ok d := by
  rw [addLine, readLine_eq_ok_none_iff.2 h]

/-- **A line that makes a statement adds it** unless a section of its kind has made one. -/
theorem addLine_of_lineSays (h : LineSays line st) (hfree : d.has st.kind = false) :
    d.addLine line = .ok (d.put st) := by
  obtain ⟨hbefore, hgap, hafter, hsaid⟩ := h
  obtain ⟨as, hread, hmakes⟩ := exists_makes_iff.2 hsaid
  obtain rfl := hmakes.name_eq
  rw [addLine, readLine_section hbefore hgap hafter, hread]
  exact add_eq_ok_iff.2 ⟨st, hmakes, hfree, rfl⟩

/-- **Whatever a line adds** is the statement it makes. -/
theorem addLine_cases (h : d.addLine line = .ok d') :
    (Blank line ∧ d' = d) ∨ ∃ st, LineSays line st ∧ d.has st.kind = false ∧ d' = d.put st := by
  unfold addLine at h
  split at h
  · cases h
  · rename_i hread
    cases h
    exact Or.inl ⟨readLine_eq_ok_none_iff.1 hread, rfl⟩
  · rename_i l hread
    obtain ⟨before, gap, inner, after, hbefore, hgap, hafter, rfl, harguments⟩ :=
      exists_of_readLine hread
    obtain ⟨st, hmakes, hfree, rfl⟩ := add_eq_ok_iff.1 h
    have hsaid := exists_makes_iff.1 ⟨_, harguments, hmakes⟩
    exact Or.inr ⟨st, .intro hbefore hgap hafter hsaid, hfree, rfl⟩

end Draft

end Pattern

end MethodFingerprint
