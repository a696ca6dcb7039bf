import MethodFingerprint.Pattern.Parse
import MethodFingerprint.Proofs.Text
import Mathlib.Data.List.Forall2
import Mathlib.Logic.Relation

/-!
# The grammar of patterns

What a pattern looks like, said without regard to how it is read. A text **derives** a pattern
(`Pattern.Derives`) if it is the header, blanks and a body in braces, every line of the body is
blank or a section, no two sections are of the same kind, and the pattern is what they say. The
definitions go from literals over lists of arguments and sections up to whole texts, and each of
them only speaks of how a text is put together, with blanks wherever they are allowed.

The second half of the module ties the readers of literals and of arguments to these definitions:
they read exactly the texts they should (`Literal.read_eq_ok_iff`,
`Pattern.readArguments_eq_ok_iff`). Both directions follow the text, in the reader by its own
recursion and in the grammar by induction on the derivation.
-/

namespace MethodFingerprint

open Text

/-- A mapped result has a result behind it. -/
theorem map_eq_ok_iff {ε α β : Type} {x : Except ε α} {f : α → β} {b : β} :
    x.map f = .ok b ↔ ∃ a, x = .ok a ∧ f a = b := by
  constructor
  · intro h
    cases x with
    | error e => cases h
    | ok a => exact ⟨a, rfl, Except.ok.inj h⟩
  · rintro ⟨a, rfl, rfl⟩
    rfl

namespace Literal

/-- The escapes: the character behind the backslash and the character that is meant. -/
def escapes : List (Char × Char) :=
  [('\\', '\\'), ('"', '"'), ('$', '$'), ('n', '\n'), ('r', '\r'), ('t', '\t')]

/-- A text **spells** a value if it may stand for the value between quotation marks: it consists of
escapes and of characters that stand for themselves. Quotation marks and backslashes do not. -/
inductive Spells : List Char → List Char → Prop
  | nil : Spells [] []
  | plain {c : Char} {text value : List Char} (hquote : c ≠ '"') (hslash : c ≠ '\\')
      (h : Spells text value) : Spells (c :: text) (c :: value)
  | escape {e c : Char} {text value : List Char} (he : (e, c) ∈ escapes)
      (h : Spells text value) : Spells ('\\' :: e :: text) (c :: value)

end Literal

namespace Pattern

/-! ### Arguments -/

/-- A literal with its value. -/
def IsLiteral (text : List Char) (value : String) : Prop :=
  ∃ inner, Literal.Spells inner value.toList ∧ text = '"' :: inner ++ ['"']

/-- A flag by its name, which may be qualified. -/
def IsFlag (text : List Char) (flag : AccessFlag) : Prop :=
  text = flag.name.toList ∨ text = "AccessFlags.".toList ++ flag.name.toList

/-- Things with commas between them, each of them with blanks around it. There is at least one, and
none behind a last comma. -/
inductive Listed {α : Type} (P : List Char → α → Prop) : List Char → List α → Prop
  | last {before text after : List Char} {a : α} (hbefore : Blank before) (ha : P text a)
      (hafter : Blank after) : Listed P (before ++ text ++ after) [a]
  | comma {before text after rest : List Char} {a : α} {as : List α} (hbefore : Blank before)
      (ha : P text a) (hafter : Blank after) (h : Listed P rest as) :
      Listed P (before ++ text ++ after ++ ',' :: rest) (a :: as)

/-- What stands between the parentheses of a section: blanks, or things with commas between them. -/
inductive Arguments {α : Type} (P : List Char → α → Prop) : List Char → List α → Prop
  | none {text : List Char} (h : Blank text) : Arguments P text []
  | some {text : List Char} {as : List α} (h : Listed P text as) : Arguments P text as

/-! ### Sections -/

/-- What a section says. -/
inductive Statement where
  | returns (type : String)
  | accessFlags (flags : List AccessFlag)
  | parameters (types : List String)
  | strings (values : List String)

/-- The section that makes a statement. -/
def Statement.kind : Statement → Section
  | returns _ => .returns
  | accessFlags _ => .accessFlags
  | parameters _ => .parameters
  | strings _ => .strings

/-- The name of a section and its arguments make a statement. A return type is one literal, and
there are at most 255 parameters. -/
inductive Says : List Char → List Char → Statement → Prop
  | returns {arguments : List Char} {type : String} (h : Arguments IsLiteral arguments [type]) :
      Says "returns".toList arguments (.returns type)
  | accessFlags {arguments : List Char} {flags : List AccessFlag}
      (h : Arguments IsFlag arguments flags) :
      Says "accessFlags".toList arguments (.accessFlags flags)
  | parameters {arguments : List Char} {types : List String}
      (h : Arguments IsLiteral arguments types) (hlen : types.length ≤ 255) :
      Says "parameters".toList arguments (.parameters types)
  | strings {arguments : List Char} {values : List String}
      (h : Arguments IsLiteral arguments values) :
      Says "strings".toList arguments (.strings values)

/-- A line that makes a statement. -/
inductive LineSays : List Char → Statement → Prop
  | intro {before name gap arguments after : List Char} {st : Statement} (hbefore : Blank before)
      (hgap : Blank gap) (hafter : Blank after) (h : Says name arguments st) :
      LineSays (before ++ name ++ gap ++ '(' :: arguments ++ ')' :: after) st

/-- Lines that are blank or make the statements in turn. -/
inductive LinesSay : List (List Char) → List Statement → Prop
  | nil : LinesSay [] []
  | blank {line : List Char} {lines : List (List Char)} {sts : List Statement} (h : Blank line)
      (hrest : LinesSay lines sts) : LinesSay (line :: lines) sts
  | statement {line : List Char} {lines : List (List Char)} {st : Statement} {sts : List Statement}
      (h : LineSays line st) (hrest : LinesSay lines sts) : LinesSay (line :: lines) (st :: sts)

/-! ### Whole patterns -/

/-- A pattern is **what statements say** if it has what is stated and nothing else. The order of the
statements does not count. An empty parameter type leaves its position open. -/
structure Denotes (sts : List Statement) (p : Pattern) : Prop where
  returnType_iff : ∀ type, p.returnType = some type ↔ .returns type ∈ sts
  accessFlags_iff : ∀ mask, p.accessFlags = some mask ↔
    ∃ flags, .accessFlags flags ∈ sts ∧ mask = flags.foldl (fun mask flag ↦ mask ||| flag.bit) 0
  parameters_iff : ∀ slots, p.parameters = some slots ↔
    ∃ types, .parameters types ∈ sts ∧ slots = types.map fun t ↦ if t = "" then none else some t
  strings_of_mem : ∀ values, .strings values ∈ sts → p.strings = values
  strings_of_not_mem : (∀ values, .strings values ∉ sts) → p.strings = []

/-- A text **derives** a pattern if its lines make statements of different kinds and the pattern is
what they say. -/
inductive Derives : List Char → Pattern → Prop
  | intro {before gap body after : List Char} {sts : List Statement} {p : Pattern}
      (hbefore : Blank before) (hgap : Blank gap) (hafter : Blank after)
      (hlines : LinesSay (body.splitOn '\n') sts) (hkinds : (sts.map Statement.kind).Nodup)
      (hdenotes : Denotes sts p) :
      Derives (before ++ "fingerprint".toList ++ gap ++ '{' :: body ++ '}' :: after) p

end Pattern

/-! ### Reading literals -/

namespace Literal

variable {text value s rest : List Char}

theorem unescape?_eq_some_iff {e c : Char} : unescape? e = some c ↔ (e, c) ∈ escapes := by
  constructor
  · intro h
    unfold unescape? at h
    split at h <;> cases h <;> decide
  · intro h
    simp only [escapes, List.mem_cons, Prod.mk.injEq, List.not_mem_nil, or_false] at h
    rcases h with ⟨rfl, rfl⟩ | ⟨rfl, rfl⟩ | ⟨rfl, rfl⟩ | ⟨rfl, rfl⟩ | ⟨rfl, rfl⟩ | ⟨rfl, rfl⟩ <;>
      rfl

/-- A plain character reads as itself. -/
theorem read_plain {c : Char} (hquote : c ≠ '"') (hslash : c ≠ '\\') (s : List Char) :
    read (c :: s) = (read s).map fun r ↦ (c :: r.1, r.2) := by
  rw [read.eq_def]
  split <;> simp_all

/-- **A literal reads as the value it spells**, up to its closing quotation mark. -/
theorem Spells.read_append (h : Spells text value) (rest : List Char) :
    read (text ++ '"' :: rest) = .ok (value, rest) := by
  induction h with
  | nil => rw [List.nil_append, read]
  | plain hquote hslash _ ih =>
    rw [List.cons_append, read_plain hquote hslash, ih]
    rfl
  | escape he _ ih =>
    rw [List.cons_append, List.cons_append, read, unescape?_eq_some_iff.2 he]
    dsimp only
    rw [ih]
    rfl

/-- **Literals are read exactly as they are spelled.** -/
theorem read_eq_ok_iff :
    read s = .ok (value, rest) ↔ ∃ text, Spells text value ∧ s = text ++ '"' :: rest := by
  constructor
  · intro h
    fun_induction read s generalizing value with
    | case1 => cases h
    | case2 =>
      cases h
      exact ⟨[], .nil, rfl⟩
    | case3 => cases h
    | case4 e s c he ih =>
      obtain ⟨⟨value', rest'⟩, hread, heq⟩ := map_eq_ok_iff.1 h
      cases heq
      obtain ⟨text, htext, rfl⟩ := ih hread
      exact ⟨_, .escape (unescape?_eq_some_iff.1 he) htext, rfl⟩
    | case5 => cases h
    | case6 c s hquote hend hescape ih =>
      -- a backslash would be the last character or have one behind it
      have hslash : c ≠ '\\' := by
        intro hc
        cases s with
        | nil => exact hend hc rfl
        | cons e s => exact hescape e s hc rfl
      obtain ⟨⟨value', rest'⟩, hread, heq⟩ := map_eq_ok_iff.1 h
      cases heq
      obtain ⟨text, htext, rfl⟩ := ih hread
      exact ⟨_, .plain hquote hslash htext, rfl⟩
  · rintro ⟨text, htext, rfl⟩
    exact htext.read_append rest

end Literal

namespace Pattern

/-! ### Lists of arguments -/

section Lists

variable {α β : Type} {P : List Char → α → Prop} {R : α → β → Prop} {text before : List Char}
  {as : List α} {bs : List β}

/-- Blanks in front of a list belong to its first member. -/
theorem Listed.blank_append (h : Listed P text as) (hbefore : Blank before) :
    Listed P (before ++ text) as := by
  cases h with
  | last hblank ha hafter =>
    rw [← List.append_assoc, ← List.append_assoc]
    exact .last (hbefore.append hblank) ha hafter
  | comma hblank ha hafter h =>
    rw [← List.append_assoc, ← List.append_assoc, ← List.append_assoc]
    exact .comma (hbefore.append hblank) ha hafter h

/-- A list of things that mean other things is a list of these. -/
theorem Listed.comp (h : Listed P text as) (hR : List.Forall₂ R as bs) :
    Listed (Relation.Comp P R) text bs := by
  induction h generalizing bs with
  | last hbefore ha hafter =>
    obtain ⟨b, bs, hb, hbs, rfl⟩ := List.forall₂_cons_left_iff.1 hR
    rw [List.forall₂_nil_left_iff.1 hbs]
    exact .last hbefore ⟨_, ha, hb⟩ hafter
  | comma hbefore ha hafter _ ih =>
    obtain ⟨b, bs, hb, hbs, rfl⟩ := List.forall₂_cons_left_iff.1 hR
    exact .comma hbefore ⟨_, ha, hb⟩ hafter (ih hbs)

/-- The things that are listed may be told from what they mean. -/
theorem Listed.exists_of_comp (h : Listed (Relation.Comp P R) text bs) :
    ∃ as, Listed P text as ∧ List.Forall₂ R as bs := by
  induction h with
  | last hbefore hb hafter =>
    obtain ⟨a, ha, hab⟩ := hb
    exact ⟨[a], .last hbefore ha hafter, .cons hab .nil⟩
  | comma hbefore hb hafter _ ih =>
    obtain ⟨a, ha, hab⟩ := hb
    obtain ⟨as, has, hR⟩ := ih
    exact ⟨a :: as, .comma hbefore ha hafter has, .cons hab hR⟩

/-- **Arguments that mean something are arguments of what they mean.** -/
theorem arguments_comp_iff : Arguments (Relation.Comp P R) text bs ↔
    ∃ as, Arguments P text as ∧ List.Forall₂ R as bs := by
  constructor
  · intro h
    cases h with
    | none h => exact ⟨[], .none h, .nil⟩
    | some h =>
      obtain ⟨as, has, hR⟩ := h.exists_of_comp
      exact ⟨as, .some has, hR⟩
  · rintro ⟨as, h, hR⟩
    cases h with
    | none h =>
      rw [List.forall₂_nil_left_iff.1 hR]
      exact .none h
    | some h => exact .some (h.comp hR)

end Lists

/-! ### Reading arguments -/

variable {text s after more rest : List Char} {a : Argument} {as : List Argument}
  {afterComma : Bool}

/-- An argument as it stands in a text: a literal, or a word that is not empty and does not look
like a literal. -/
inductive Argument.IsText : List Char → Argument → Prop
  | literal {inner value : List Char} (h : Literal.Spells inner value) :
      IsText ('"' :: inner ++ ['"']) (.literal value)
  | word {text : List Char} (hne : text ≠ []) (hquote : text.head? ≠ some '"')
      (hword : ∀ c ∈ text, isWordChar c = true) : IsText text (.word text)

theorem isBlank_of_isWordChar {c : Char} (h : isWordChar c = true) : isBlank c = false := by
  rw [isWordChar, Bool.not_eq_true', Bool.or_eq_false_iff] at h
  exact h.2

/-- An argument starts with a letter. -/
theorem Argument.IsText.exists_eq_cons (h : a.IsText text) :
    ∃ c s, text = c :: s ∧ isBlank c = false := by
  cases h with
  | literal h => exact ⟨'"', _, rfl, by decide⟩
  | word hne hquote hword =>
    obtain ⟨c, s, rfl⟩ := List.exists_cons_of_ne_nil hne
    exact ⟨c, s, rfl, isBlank_of_isWordChar (hword c List.mem_cons_self)⟩

/-- A text that does not start with a quotation mark starts with a word. -/
theorem readArgument_of_head?_ne (h : s.head? ≠ some '"') :
    readArgument s = .ok (.word (s.takeWhile isWordChar), s.dropWhile isWordChar) := by
  unfold readArgument
  split
  · exact absurd rfl h
  · rfl

/-- **An argument is read** from the front of a text if a word does not go on behind it. -/
theorem Argument.IsText.readArgument_append (h : a.IsText text)
    (hrest : ∀ c ∈ rest.head?, isWordChar c = false) :
    readArgument (text ++ rest) = .ok (a, rest) := by
  cases h with
  | literal h =>
    rw [List.cons_append, List.cons_append, readArgument, List.append_assoc,
      List.singleton_append, h.read_append]
  | word hne hquote hword =>
    have hstop : rest.takeWhile isWordChar = [] ∧ rest.dropWhile isWordChar = rest := by
      cases rest with
      | nil => exact ⟨rfl, rfl⟩
      | cons c rest =>
        have hc := hrest c rfl
        exact ⟨List.takeWhile_cons_of_neg (by simp [hc]), List.dropWhile_cons_of_neg (by simp [hc])⟩
    have hhead : (text ++ rest).head? ≠ some '"' := by
      obtain ⟨c, s, rfl⟩ := List.exists_cons_of_ne_nil hne
      exact hquote
    rw [readArgument_of_head?_ne hhead, List.takeWhile_append_of_pos hword,
      List.dropWhile_append_of_pos hword, hstop.1, hstop.2, List.append_nil]

/-- **Whatever is read is an argument**, unless it is the empty word. -/
theorem exists_isText_of_readArgument (h : readArgument s = .ok (a, rest)) (ha : a ≠ .word []) :
    ∃ text, a.IsText text ∧ s = text ++ rest := by
  by_cases hquote : s.head? = some '"'
  · obtain ⟨s, rfl⟩ := List.head?_eq_some_iff.1 hquote
    rw [readArgument] at h
    cases hread : Literal.read s with
    | error fault =>
      rw [hread] at h
      cases h
    | ok r =>
      rw [hread] at h
      cases h
      obtain ⟨inner, hinner, rfl⟩ := Literal.read_eq_ok_iff.1 hread
      refine ⟨_, .literal hinner, ?_⟩
      rw [List.cons_append, List.cons_append, List.append_assoc, List.singleton_append]
  · rw [readArgument_of_head?_ne hquote] at h
    cases h
    have hhead : (s.takeWhile isWordChar).head? ≠ some '"' := by
      rw [List.head?_takeWhile]
      exact fun hsome ↦ hquote (Option.filter_eq_some_iff.1 hsome).1
    exact ⟨_, .word (fun hnil ↦ ha (congrArg _ hnil)) hhead fun c ↦ List.mem_takeWhile_imp,
      List.takeWhile_append_dropWhile.symm⟩

/-- The last argument. -/
theorem readArguments_last (ha : a.IsText text) (hs : trimStart s = text ++ after)
    (hafter : Blank after) : readArguments afterComma s = .ok [a] := by
  obtain ⟨c, cs, rfl, -⟩ := ha.exists_eq_cons
  have hread : readArgument (c :: cs ++ after) = .ok (a, after) := by
    refine ha.readArgument_append fun d hd ↦ ?_
    rw [isWordChar, hafter d (List.mem_of_mem_head? hd), Bool.or_true, Bool.not_true]
  rw [readArguments]
  split
  · rename_i hnil
    rw [hs] at hnil
    cases hnil
  · rename_i d ds hcons
    rw [← hcons, hs, hread]
    dsimp only
    rw [trimStart_eq_nil_iff.2 hafter]

/-- **An argument and more behind a comma.** -/
theorem readArguments_comma (ha : a.IsText text) (hs : trimStart s = text ++ after ++ ',' :: more)
    (hafter : Blank after) :
    readArguments afterComma s = (readArguments true more).map (a :: ·) := by
  obtain ⟨c, cs, rfl, -⟩ := ha.exists_eq_cons
  have hread : readArgument (c :: cs ++ after ++ ',' :: more) = .ok (a, after ++ ',' :: more) := by
    rw [List.append_assoc]
    refine ha.readArgument_append fun d hd ↦ ?_
    cases after with
    | nil =>
      cases hd
      decide
    | cons e after =>
      obtain rfl : e = d := Option.some.inj hd
      rw [isWordChar, hafter e List.mem_cons_self, Bool.or_true, Bool.not_true]
  have hcomma : trimStart (after ++ ',' :: more) = ',' :: more := by
    rw [trimStart_append hafter, trimStart_cons (by decide)]
  rw [readArguments]
  split
  · rename_i hnil
    rw [hs] at hnil
    cases hnil
  · rename_i d ds hcons
    rw [← hcons, hs, hread]
    dsimp only
    rw [hcomma]
    rfl

/-- **Listed arguments are read**, by induction on the list. -/
theorem Listed.readArguments_eq (h : Listed Argument.IsText s as) :
    readArguments afterComma s = .ok as := by
  induction h generalizing afterComma with
  | @last before text after a hbefore ha hafter =>
    obtain ⟨c, cs, rfl, hc⟩ := ha.exists_eq_cons
    refine readArguments_last ha ?_ hafter
    rw [List.append_assoc, trimStart_append hbefore]
    exact trimStart_cons hc
  | @comma before text after rest a as hbefore ha hafter _ ih =>
    obtain ⟨c, cs, rfl, hc⟩ := ha.exists_eq_cons
    have hs : trimStart (before ++ (c :: cs) ++ after ++ ',' :: rest) =
        c :: cs ++ after ++ ',' :: rest := by
      rw [List.append_assoc, List.append_assoc, trimStart_append hbefore, List.append_assoc]
      exact trimStart_cons hc
    rw [readArguments_comma ha hs hafter, ih]
    rfl

/-- What is read of a text behind its first blanks. -/
theorem exists_blank_isText_of_readArgument (h : readArgument (trimStart s) = .ok (a, rest))
    (ha : a ≠ .word []) :
    ∃ before text, Blank before ∧ a.IsText text ∧ s = before ++ text ++ rest := by
  obtain ⟨text, htext, htrim⟩ := exists_isText_of_readArgument h ha
  obtain ⟨before, hbefore, hs⟩ := exists_eq_blank_trimStart s
  refine ⟨before, text, hbefore, htext, ?_⟩
  rw [List.append_assoc, ← htrim]
  exact hs

/-- **Whatever is read are listed arguments**, or there are none. The empty word is left out, which
is read wherever a comma stands in place of an argument. -/
theorem listed_of_readArguments (h : readArguments afterComma s = .ok as) (has : .word [] ∉ as) :
    (as = [] ∧ afterComma = false ∧ Blank s) ∨ Listed Argument.IsText s as := by
  fun_induction readArguments afterComma s generalizing as with
  | case1 => cases h
  | case2 afterComma s hs hcomma =>
    cases h
    exact Or.inl ⟨rfl, Bool.eq_false_iff.2 hcomma, trimStart_eq_nil_iff.1 hs⟩
  | case3 => cases h
  | case4 afterComma s c cs hs a rest hread hrest =>
    cases h
    have ha : a ≠ .word [] := fun heq ↦ has (heq ▸ List.mem_cons_self)
    obtain ⟨before, text, hbefore, htext, rfl⟩ :=
      exists_blank_isText_of_readArgument (hs ▸ hread) ha
    exact Or.inr (.last hbefore htext (trimStart_eq_nil_iff.1 hrest))
  | case5 afterComma s c cs hs a rest hread more hrest ih =>
    obtain ⟨as', hmore, rfl⟩ := map_eq_ok_iff.1 h
    rw [List.mem_cons, not_or] at has
    obtain ⟨before, text, hbefore, htext, rfl⟩ :=
      exists_blank_isText_of_readArgument (hs ▸ hread) (Ne.symm has.1)
    obtain ⟨after, hafter, hrest'⟩ := exists_eq_blank_trimStart rest
    rw [hrest', hrest, ← List.append_assoc]
    -- behind a comma there is an argument
    have hlisted := (ih hmore has.2).resolve_left fun hnone ↦ Bool.noConfusion hnone.2.1
    exact Or.inr (.comma hbefore htext hafter hlisted)
  | case6 => cases h

/-- **Arguments are read exactly as they may be written**, as long as none is the empty word. -/
theorem readArguments_eq_ok_iff (has : .word [] ∉ as) :
    readArguments false s = .ok as ↔ Arguments Argument.IsText s as := by
  constructor
  · intro h
    rcases listed_of_readArguments h has with ⟨rfl, -, hblank⟩ | hlisted
    · exact .none hblank
    · exact .some hlisted
  · intro h
    cases h with
    | none hblank =>
      rw [readArguments]
      split
      · rfl
      · rename_i hcons
        rw [trimStart_eq_nil_iff.2 hblank] at hcons
        cases hcons
    | some hlisted => exact hlisted.readArguments_eq

end Pattern

end MethodFingerprint
