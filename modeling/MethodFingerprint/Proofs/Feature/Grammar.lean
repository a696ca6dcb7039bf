import MethodFingerprint.Proofs.Feature
import Mathlib.Data.List.Induction

/-!
# The grammar of tokens

What a token looks like, said without regard to how it is read. A token **derives** a reading
(`Feature.Derives`) if its first bar stands between a category and a value that spell the reading.
Numbers are told by their digits alone (`Text.IsDecimal`): the mask of access flags may carry a plus
sign and leading zeros, the position of a parameter has neither.

Tokens are read exactly as the grammar has them (`Feature.read_eq_ok_iff`). The number in a position
is in the one form that numbers are written in (`Text.isPlainDecimal_iff`), so a position, like a
type or a string, is written as it was read. A mask is read from many texts and written in one of
them, and this is all that is lost when a token is made anew from what it says
(`Feature.ofReading_of_read`).
-/

namespace MethodFingerprint

/-! ### Decimals -/

namespace Text

variable {s : List Char} {n : Nat}

/-- A text is a **decimal** of a number if it consists of digits, the last of them for the ones.
There is at least one, and zeros may lead. -/
inductive IsDecimal : List Char → Nat → Prop
  | digit {c : Char} (hc : c.isDigit = true) : IsDecimal [c] (c.toNat - '0'.toNat)
  | concat {s : List Char} {n : Nat} {c : Char} (h : IsDecimal s n) (hc : c.isDigit = true) :
      IsDecimal (s ++ [c]) (10 * n + (c.toNat - '0'.toNat))

/-- The **plain** decimal of a number: no zero leads but the one that stands alone. -/
def IsPlainDecimal (s : List Char) (n : Nat) : Prop :=
  IsDecimal s n ∧ ∀ rest, s = '0' :: rest → rest = []

theorem IsDecimal.ne_nil (h : IsDecimal s n) : s ≠ [] := by
  cases h with
  | digit => exact List.cons_ne_nil _ _
  | concat => exact List.append_ne_nil_of_right_ne_nil _ (List.cons_ne_nil _ _)

theorem IsDecimal.isDigit_of_mem (h : IsDecimal s n) : ∀ c ∈ s, c.isDigit = true := by
  induction h with
  | digit hc => exact List.forall_mem_singleton.2 hc
  | concat _ hc ih => exact List.forall_mem_append.2 ⟨ih, List.forall_mem_singleton.2 hc⟩

/-- The digits tell the number. -/
theorem IsDecimal.ofDigitChars_eq (h : IsDecimal s n) : Nat.ofDigitChars 10 s 0 = n := by
  induction h with
  | digit => rw [Nat.ofDigitChars_cons, Nat.ofDigitChars_nil, Nat.mul_zero, Nat.zero_add]
  | concat _ _ ih => rw [Nat.ofDigitChars_append, ih, Nat.ofDigitChars_cons, Nat.ofDigitChars_nil]

/-- Any run of digits makes up a number, by induction on its last digit. -/
theorem isDecimal_ofDigitChars (hne : s ≠ []) (h : ∀ c ∈ s, c.isDigit = true) :
    IsDecimal s (Nat.ofDigitChars 10 s 0) := by
  induction s using List.reverseRecOn with
  | nil => exact absurd rfl hne
  | append_singleton s c ih =>
    obtain ⟨hs, hc⟩ := List.forall_mem_append.1 h
    have hc : c.isDigit = true := hc c List.mem_cons_self
    rw [Nat.ofDigitChars_append, Nat.ofDigitChars_cons, Nat.ofDigitChars_nil]
    rcases eq_or_ne s [] with rfl | hs'
    · rw [Nat.ofDigitChars_nil, Nat.mul_zero, Nat.zero_add]
      exact .digit hc
    · exact .concat (ih hs' hs) hc

/-- **Digits are read as the number they make up.** -/
theorem digits?_eq_some_iff : digits? s = some n ↔ IsDecimal s n := by
  unfold digits?
  split
  · rename_i hs
    rw [Option.some.injEq]
    refine ⟨?_, IsDecimal.ofDigitChars_eq⟩
    rintro rfl
    exact isDecimal_ofDigitChars hs.1 (List.all_eq_true.1 hs.2)
  · rename_i hs
    refine iff_of_false (Option.some_ne_none n ∘ Eq.symm) fun h ↦ hs ⟨h.ne_nil, ?_⟩
    exact List.all_eq_true.2 h.isDigit_of_mem

/-- **A number with a sign** is read from its decimals, with or without a plus in front. -/
theorem signedDigits?_eq_some_iff {bound : Nat} : signedDigits? bound s = some n ↔
    n < bound ∧ (IsDecimal s n ∨ ∃ digits, s = '+' :: digits ∧ IsDecimal digits n) := by
  unfold signedDigits?
  split
  · rename_i digits
    have hplus : ¬IsDecimal ('+' :: digits) n := fun h ↦
      absurd (h.isDigit_of_mem '+' List.mem_cons_self) (by decide)
    simp [Option.filter_eq_some_iff, digits?_eq_some_iff, hplus, and_comm]
  · rename_i hs
    have hplus : ¬∃ digits, s = '+' :: digits ∧ IsDecimal digits n := fun ⟨digits, h, _⟩ ↦
      hs digits h
    simp [Option.filter_eq_some_iff, digits?_eq_some_iff, hplus, and_comm]

/-- A digit is below ten. -/
theorem toNat_sub_lt {c : Char} (hc : c.isDigit = true) : c.toNat - '0'.toNat < 10 := by
  have h := (Char.isDigit_iff_toNat.1 hc).2
  have hnine : '9'.toNat = '0'.toNat + 9 := rfl
  omega

/-- A digit is written as it was read. -/
theorem digitChar_toNat_sub {c : Char} (hc : c.isDigit = true) :
    Nat.digitChar (c.toNat - '0'.toNat) = c := by
  have h := (Char.isDigit_iff_toNat.1 hc).1
  have hzero : '0'.toNat = 48 := rfl
  rw [← Char.toNat_inj, Nat.toNat_digitChar_of_lt_ten (toNat_sub_lt hc)]
  omega

/-- **A plain decimal is the numeral of its number**, by induction on the last digit: what stands in
front of it is plain, and not zero. -/
theorem IsDecimal.eq_numeral (h : IsDecimal s n) (hplain : ∀ rest, s = '0' :: rest → rest = []) :
    s = numeral n := by
  induction h with
  | digit hc => rw [numeral, Nat.toDigits_of_lt_base (toNat_sub_lt hc), digitChar_toNat_sub hc]
  | @concat s n c h hc ih =>
    have hhead (rest : List Char) : s ≠ '0' :: rest := by
      rintro rfl
      exact absurd (hplain _ rfl) (List.append_ne_nil_of_right_ne_nil _ (List.cons_ne_nil _ _))
    have hs : s = numeral n := ih fun rest hrest ↦ absurd hrest (hhead rest)
    have hn : 0 < n := by
      refine Nat.pos_of_ne_zero ?_
      rintro rfl
      exact hhead [] hs
    have hdigit : [c] = Nat.toDigits 10 (c.toNat - '0'.toNat) := by
      rw [Nat.toDigits_of_lt_base (toNat_sub_lt hc), digitChar_toNat_sub hc]
    rw [hs, hdigit, numeral, numeral,
      Nat.toDigits_append_toDigits (by decide) hn (toNat_sub_lt hc)]

/-- **The plain decimal of a number is its numeral.** -/
theorem isPlainDecimal_iff : IsPlainDecimal s n ↔ s = numeral n := by
  refine ⟨fun h ↦ h.1.eq_numeral h.2, ?_⟩
  rintro rfl
  refine ⟨digits?_eq_some_iff.1 (digits?_numeral n), fun rest hrest ↦ ?_⟩
  rcases eq_or_ne n 0 with rfl | hn
  · exact (List.cons.inj hrest).2.symm
  · have hhead := head?_numeral_ne_zero hn
    rw [hrest] at hhead
    exact absurd rfl hhead

/-- Numbers are read from their plain decimals. -/
theorem plainDigits?_eq_some_iff : plainDigits? s = some n ↔ s = numeral n := by
  refine ⟨fun h ↦ ?_, fun h ↦ h ▸ plainDigits?_numeral n⟩
  unfold plainDigits? at h
  split at h
  · cases h
  · rename_i hs
    refine (digits?_eq_some_iff.1 h).eq_numeral ?_
    rintro (- | ⟨c, rest⟩) rfl
    · rfl
    · exact absurd rfl (hs c rest)

/-- Numbers are told apart by their numerals. -/
theorem numeral_injective : Function.Injective numeral := fun m n h ↦ by
  have hread := digits?_numeral m
  rw [h, digits?_numeral] at hread
  exact (Option.some.inj hread).symm

end Text

/-! ### The grammar -/

open Text

/-- A text **spells a mask** if it is a decimal of the mask, behind a plus sign or not. -/
def IsMask (s : List Char) (mask : UInt32) : Prop :=
  IsDecimal s mask.toNat ∨ ∃ digits, s = '+' :: digits ∧ IsDecimal digits mask.toNat

/-- A reading is **of** a category and a value if this is what it says. A mask is of every value
that spells it. -/
def Reading.IsOf (r : Reading) (c : Category) (value : String) : Prop :=
  r.category = c ∧ match r with
    | .returnType descriptor => descriptor = value
    | .parameter _ descriptor => descriptor = value
    | .string literal => literal = value
    | .accessFlags mask => IsMask value.toList mask

namespace Feature

/-- A category and a value **spell** a reading. -/
inductive Spells : List Char → List Char → Reading → Prop
  | returnType (value : List Char) :
      Spells "returnType".toList value (.returnType (String.ofList value))
  | string (value : List Char) : Spells "strings".toList value (.string (String.ofList value))
  | accessFlags {value : List Char} {mask : UInt32} (h : IsMask value mask) :
      Spells "accessFlags".toList value (.accessFlags mask)
  | parameter {digits : List Char} {index : Nat} (h : IsPlainDecimal digits index)
      (hle : index ≤ 254) (value : List Char) :
      Spells ("parameter_".toList ++ digits) value (.parameter index (String.ofList value))

/-- A token **derives** a reading if the two sides of its first bar spell it. -/
def Derives (f : Feature) (r : Reading) : Prop :=
  ∃ category value, f.token.toList = category ++ '|' :: value ∧ '|' ∉ category ∧
    Spells category value r

end Feature

/-! ### Categories -/

namespace Category

/-- The letter a category starts with. -/
def initial : Category → Char
  | returnType => 'r'
  | parameter _ => 'p'
  | strings => 's'
  | accessFlags => 'a'

theorem head?_text (c : Category) : c.text.toList.head? = some c.initial := by
  cases c with
  | parameter index => rw [text, String.toList_append]; rfl
  | returnType | strings | accessFlags => rfl

/-- **Categories are told apart by their texts**: by the first letter, and positions by their
numerals. -/
theorem text_injective : Function.Injective text := by
  intro c d h
  have hinitial : c.initial = d.initial := by
    rw [← Option.some_inj, ← head?_text, ← head?_text, h]
  cases c with
  | parameter i =>
    cases d with
    | parameter j =>
      have hdigits := congrArg String.toList h
      rw [text, text, String.toList_append, String.toList_append, List.append_cancel_left_eq,
        String.toList_ofList, String.toList_ofList] at hdigits
      rw [numeral_injective hdigits]
    | returnType | strings | accessFlags => exact absurd hinitial (by simp [initial])
  | returnType | strings | accessFlags =>
    cases d <;> first | rfl | exact absurd hinitial (by simp [initial])

end Category

namespace Feature

variable {f : Feature} {r : Reading} {c : Category} {value : String} {mask : UInt32}

/-- A token is of a category and a value if these stand on the two sides of a bar. -/
theorem eq_ofCategory_iff :
    f = ofCategory c value ↔ f.token.toList = c.text.toList ++ '|' :: value.toList := by
  have htext : (ofCategory c value).token.toList = c.text.toList ++ '|' :: value.toList := by
    rw [ofCategory, String.toList_append, String.toList_append, List.append_assoc]
    rfl
  rw [← htext, String.toList_inj]
  exact ⟨fun h ↦ h ▸ rfl, fun h ↦ by cases f; cases h; rfl⟩

theorem Spells.category_eq {category value : List Char} (h : Spells category value r) :
    category = r.category.text.toList := by
  cases h with
  | returnType | string | accessFlags => rfl
  | @parameter digits index h hle value =>
    rw [Reading.category, Category.text, String.toList_append,
      String.toList_ofList (l := numeral index), isPlainDecimal_iff.1 h]

theorem Spells.isOf {category value : List Char} (h : Spells category value r) :
    r.IsOf r.category (String.ofList value) := by
  refine ⟨rfl, ?_⟩
  cases h with
  | returnType | string | parameter => rfl
  | accessFlags h =>
    dsimp only
    rwa [String.toList_ofList]

/-! ### Tokens are read by the grammar -/

theorem readMask?_eq_some_iff {s : List Char} : readMask? s = some mask ↔ IsMask s mask := by
  rw [readMask?, Option.map_eq_some_iff, IsMask]
  constructor
  · rintro ⟨n, hn, rfl⟩
    obtain ⟨hlt, h⟩ := signedDigits?_eq_some_iff.1 hn
    rwa [UInt32.toNat_ofNat_of_lt' hlt]
  · exact fun h ↦ ⟨mask.toNat, signedDigits?_eq_some_iff.2 ⟨mask.toNat_lt, h⟩, UInt32.ofNat_toNat⟩

theorem readIndex?_eq_some_iff {digits : List Char} {index : Nat} :
    readIndex? digits = some index ↔ IsPlainDecimal digits index ∧ index ≤ 254 := by
  rw [readIndex?, Option.filter_eq_some_iff, plainDigits?_eq_some_iff, isPlainDecimal_iff,
    decide_eq_true_eq, maxParameterIndex]

/-- A token of access flags says the mask its value spells, and nothing if it spells none. -/
theorem read_ofCategory_accessFlags_iff :
    (ofCategory .accessFlags value).read = .ok (.accessFlags mask) ↔ IsMask value.toList mask := by
  rw [read, splitFirst?_ofCategory, ← readMask?_eq_some_iff]
  dsimp only [Category.text]
  rw [if_neg (by decide), if_neg (by decide), if_pos rfl]
  cases readMask? value.toList <;> simp

/-- **Tokens are read exactly as the grammar has them.** -/
theorem read_eq_ok_iff : f.read = .ok r ↔ f.Derives r := by
  constructor
  · intro h
    unfold read at h
    split at h
    · cases h
    · rename_i category value hsplit
      obtain ⟨htoken, hbar⟩ := splitFirst?_eq_some.1 hsplit
      refine ⟨category, value, htoken, hbar, ?_⟩
      split at h
      · rename_i hcategory
        cases h
        exact hcategory ▸ .returnType value
      split at h
      · rename_i hcategory
        cases h
        exact hcategory ▸ .string value
      split at h
      · rename_i hcategory
        split at h
        · rename_i mask hmask
          cases h
          exact hcategory ▸ .accessFlags (readMask?_eq_some_iff.1 hmask)
        · cases h
      split at h
      · rename_i digits hdigits
        split at h
        · rename_i index hindex
          cases h
          obtain ⟨hplain, hle⟩ := readIndex?_eq_some_iff.1 hindex
          exact afterHead?_eq_some.1 hdigits ▸ .parameter hplain hle value
        · cases h
      · cases h
  · rintro ⟨category, value, htoken, -, h⟩
    have hf : f = ofCategory r.category (String.ofList value) := by
      rw [eq_ofCategory_iff, htoken, h.category_eq, String.toList_ofList]
    rw [hf]
    cases h with
    | returnType => exact read_returnType _
    | string => exact read_string _
    | accessFlags h => exact read_ofCategory_accessFlags_iff.2 (by rwa [String.toList_ofList])
    | parameter _ hle => exact read_parameter hle _

/-- A token that derives a reading is of its category and of a value it says. -/
theorem Derives.exists_ofCategory (h : f.Derives r) :
    ∃ value, f = ofCategory r.category value ∧ r.IsOf r.category value := by
  obtain ⟨category, value, htoken, -, h⟩ := h
  refine ⟨String.ofList value, ?_, h.isOf⟩
  rw [eq_ofCategory_iff, htoken, h.category_eq, String.toList_ofList]

/-- **A token of a category and a value says nothing else**, if it says anything. -/
theorem Derives.isOf (h : (ofCategory c value).Derives r) : r.IsOf c value := by
  obtain ⟨category, value', htoken, hbar, h⟩ := h
  have hsplit := splitFirst?_eq_some.2 ⟨htoken, hbar⟩
  rw [splitFirst?_ofCategory, Option.some.injEq, Prod.mk.injEq] at hsplit
  obtain ⟨htext, rfl⟩ := hsplit
  have hc : c = r.category :=
    Category.text_injective (String.toList_injective (htext.trans h.category_eq))
  have hr := h.isOf
  rwa [String.ofList_toList, ← hc] at hr

/-- Past the highest position there is no parameter to read. -/
theorem read_parameter_eq_ok_iff {index : Nat} {descriptor : String} :
    (parameter index descriptor).read = .ok (.parameter index descriptor) ↔ index ≤ 254 := by
  refine ⟨fun h ↦ ?_, fun h ↦ read_parameter h descriptor⟩
  obtain ⟨_, _, -, -, hspells⟩ := read_eq_ok_iff.1 h
  cases hspells with
  | parameter _ hle => exact hle

/-- **A token is made anew from what it says**: it is the token it was, unless it spells a mask in
another way than the numeral. -/
theorem ofReading_of_read (h : f.read = .ok r) : ofReading r = f ∨
    ∃ mask value, r = .accessFlags mask ∧ f = ofCategory .accessFlags value ∧
      IsMask value.toList mask ∧ value.toList ≠ numeral mask.toNat := by
  obtain ⟨value, rfl, -, hvalue⟩ := (read_eq_ok_iff.1 h).exists_ofCategory
  cases r with
  | returnType | parameter | string =>
    obtain rfl := hvalue
    exact Or.inl rfl
  | accessFlags mask =>
    rcases eq_or_ne value.toList (numeral mask.toNat) with heq | hne
    · refine Or.inl ?_
      rw [ofReading, accessFlags, ← heq, String.ofList_toList]
      rfl
    · exact Or.inr ⟨mask, value, rfl, rfl, hvalue, hne⟩

/-- **The grammar of tokens.** A token is accepted exactly if it is in the grammar, and it then says
what the grammar has it say. A token that is made of a category and a value says these exactly if it
is in the grammar: whatever the value for types and strings, for every value that spells a mask, and
for positions up to 254. What an accepted token says makes the token again, except that a mask that
is spelled in another way gets its numeral. -/
theorem read_by_grammar :
    (∀ f r, read f = .ok r ↔ f.Derives r) ∧
      (∀ c value, (∃ r, (ofCategory c value).read = .ok r ∧ r.IsOf c value) ↔
        ∃ r, (ofCategory c value).Derives r) ∧
      (∀ descriptor, (returnType descriptor).read = .ok (.returnType descriptor)) ∧
      (∀ literal, (string literal).read = .ok (.string literal)) ∧
      (∀ mask, (accessFlags mask).read = .ok (.accessFlags mask)) ∧
      (∀ value mask, (ofCategory .accessFlags value).read = .ok (.accessFlags mask) ↔
        IsMask value.toList mask) ∧
      (∀ index descriptor, (parameter index descriptor).read = .ok (.parameter index descriptor) ↔
        index ≤ 254) ∧
      ∀ f r, read f = .ok r → ofReading r = f ∨ ∃ mask value, r = .accessFlags mask ∧
        f = ofCategory .accessFlags value ∧ IsMask value.toList mask ∧
        value.toList ≠ numeral mask.toNat ∧
        ofReading r = ofCategory .accessFlags (String.ofList (numeral mask.toNat)) := by
  refine ⟨fun _ _ ↦ read_eq_ok_iff, fun c value ↦ exists_congr fun r ↦ ?_, read_returnType,
    read_string, read_accessFlags, fun _ _ ↦ read_ofCategory_accessFlags_iff,
    fun _ _ ↦ read_parameter_eq_ok_iff, fun f r h ↦ ?_⟩
  · rw [read_eq_ok_iff]
    exact and_iff_left_of_imp Derives.isOf
  · refine (ofReading_of_read h).imp_right ?_
    rintro ⟨mask, value, rfl, hf, hmask, hne⟩
    exact ⟨mask, value, rfl, hf, hmask, hne, rfl⟩

end Feature

end MethodFingerprint
