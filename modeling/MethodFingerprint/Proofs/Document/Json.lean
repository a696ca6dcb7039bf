import MethodFingerprint.Document.Json.Read
import MethodFingerprint.Proofs.Feature
import Mathlib.Data.List.TakeWhile

/-!
# Written JSON reads back

A value written without blanks is read as the value it was, whatever text its strings hold
(`read?_compact`). The values that are written are **plain**: their strings denote texts, and their
numbers are numerals of whole numbers, whose spelling the reader keeps.

The readers take what they need off the front of a text, so every statement is about a written piece
with an arbitrary rest behind it. Strings, arrays and objects end by themselves. A number ends where
the rest does not go on with it (`EndsNumber`), which in a written text is a comma, a closing
bracket or the end. The fuel that a value needs is twice its length and one more, by induction on
the value.
-/

namespace MethodFingerprint.Json

variable {c : Char} {s rest : List Char} {fuel : Nat}

/-! ### Strings -/

theorem letterValue?_of_letterEscape? {e : Char} (h : letterEscape? c = some e) :
    letterValue? e = some c ∧ e ≠ 'u' := by
  unfold letterEscape? at h
  split at h
  case h_8 => cases h
  all_goals
    rw [← Option.some.inj h]
    decide

/-- The code of a control character is the character. -/
theorem ofCode_toNat (h : c.toNat < 0x20) : Piece.ofCode c.toNat = .char c := by
  have hlow : ¬(0xD800 ≤ c.toNat ∧ c.toNat < 0xDC00) := by omega
  have hhigh : ¬(0xDC00 ≤ c.toNat ∧ c.toNat < 0xE000) := by omega
  rw [Piece.ofCode, if_neg hlow, if_neg hhigh, Char.ofNat_toNat]

theorem hexValue4?_hexDigit {n : Nat} (h : n < 0x20) :
    hexValue4? '0' '0' (Text.hexDigit (n / 16)) (Text.hexDigit n) = some n := by
  have hzero : Text.hexValue? '0' = some 0 := by decide
  have hhigh : Text.hexValue? (Text.hexDigit (n / 16)) = some (n / 16) :=
    Text.hexValue?_hexDigit (by omega)
  have hlow : Text.hexValue? (Text.hexDigit n) = some (n % 16) := by
    have hmod := Text.hexValue?_hexDigit (n := n % 16) (by omega)
    rwa [Text.hexDigit, Nat.mod_mod, ← Text.hexDigit] at hmod
  have hsum : ((0 * 16 + 0) * 16 + n / 16) * 16 + n % 16 = n := by omega
  simp only [hexValue4?, hzero, hhigh, hlow, hsum]

/-- **A written character is read as itself**, whether it was escaped or not. -/
theorem readPieces?_writeChar (c : Char) (rest : List Char) :
    readPieces? (writeChar c ++ rest) = (readPieces? rest).map (consPiece (.char c)) := by
  unfold writeChar
  split
  · rename_i e he
    obtain ⟨hvalue, hne⟩ := letterValue?_of_letterEscape? he
    rw [List.cons_append, List.cons_append, List.nil_append, readPieces?, hvalue]
    rintro - - - - - rfl
    exact absurd rfl hne
  · rename_i hnone
    split
    · rename_i hcontrol
      simp only [List.cons_append, List.nil_append, readPieces?, hexValue4?_hexDigit hcontrol,
        ofCode_toNat hcontrol]
    · rename_i hprintable
      have hquote : c ≠ '"' := by
        rintro rfl
        cases hnone
      have hslash : c ≠ '\\' := by
        rintro rfl
        cases hnone
      rw [List.singleton_append, readPieces?, if_neg (not_or.2 ⟨hslash, hprintable⟩)]
      all_goals simp_all

/-- **A written text is read up to its closing quotation mark.** -/
theorem readPieces?_written (s rest : List Char) :
    readPieces? (s.flatMap writeChar ++ '"' :: rest) = some (s.map .char, rest) := by
  induction s with
  | nil => simp [readPieces?]
  | cons c s ih =>
    rw [List.flatMap_cons, List.append_assoc, readPieces?_writeChar, ih]
    rfl

theorem textOfPieces?_char (s : List Char) : textOfPieces? (s.map .char) = some s := by
  induction s with
  | nil => rfl
  | cons c s ih => rw [List.map_cons, textOfPieces?, ih, Option.map_some]

theorem readText?_written (s : String) (rest : List Char) :
    readText? (s.toList.flatMap writeChar ++ '"' :: rest) = some (some s, rest) := by
  rw [readText?, readPieces?_written, Option.map_some, textOfPieces?_char, Option.map_some,
    String.ofList_toList]

theorem writeText_some_append (s : String) (rest : List Char) :
    writeText (some s) ++ rest = '"' :: (s.toList.flatMap writeChar ++ '"' :: rest) := by
  simp [writeText, writeString]

/-! ### Numbers -/

/-- A text that does not go on with a number. -/
def EndsNumber (rest : List Char) : Prop :=
  ∀ c ∈ rest.head?, c.isDigit = false ∧ c ≠ '.' ∧ c ≠ 'e' ∧ c ≠ 'E'

theorem endsNumber_nil : EndsNumber [] := nofun

theorem endsNumber_cons (hdigit : c.isDigit = false) (hpoint : c ≠ '.') (he : c ≠ 'e')
    (hE : c ≠ 'E') : EndsNumber (c :: rest) := by
  intro d hd
  rw [← Option.some.inj hd]
  exact ⟨hdigit, hpoint, he, hE⟩

theorem takeDigits?_append (hs : s ≠ []) (hdigits : ∀ c ∈ s, c.isDigit = true)
    (hrest : EndsNumber rest) : takeDigits? (s ++ rest) = some (s, rest) := by
  have htake : (s ++ rest).takeWhile Char.isDigit = s := by
    rw [List.takeWhile_append_of_pos hdigits]
    cases rest with
    | nil => simp
    | cons c rest => simp [(hrest c rfl).1]
  have hdrop : (s ++ rest).dropWhile Char.isDigit = rest := by
    rw [List.dropWhile_append_of_pos hdigits]
    cases rest with
    | nil => rfl
    | cons c rest => simp [(hrest c rfl).1]
  rw [takeDigits?, htake, hdrop]
  cases s with
  | nil => exact absurd rfl hs
  | cons c s => rfl

/-- A numeral is taken as the digits before the point. -/
theorem takeWhole?_numeral (n : Nat) (hrest : EndsNumber rest) :
    takeWhole? (Text.numeral n ++ rest) = some (Text.numeral n, rest) := by
  by_cases hn : n = 0
  · subst hn
    rfl
  · have hdigits := takeDigits?_append (Text.numeral_ne_nil n)
      (fun _ hc ↦ Text.isDigit_of_mem_numeral hc) hrest
    have hhead := Text.head?_numeral_ne_zero hn
    obtain ⟨c, t, hcons⟩ := List.exists_cons_of_ne_nil (Text.numeral_ne_nil n)
    rw [hcons] at hdigits hhead ⊢
    rw [List.cons_append] at hdigits ⊢
    unfold takeWhole?
    split
    · rename_i heq
      rw [(List.cons.inj heq).1] at hhead
      exact absurd rfl hhead
    · exact hdigits

theorem takeFraction?_of_endsNumber (hrest : EndsNumber rest) :
    takeFraction? rest = some ([], rest) := by
  unfold takeFraction?
  split
  · exact absurd rfl (hrest _ rfl).2.1
  · rfl

theorem takeExponent?_of_endsNumber (hrest : EndsNumber rest) :
    takeExponent? rest = some ([], rest) := by
  cases rest with
  | nil => rfl
  | cons c rest =>
    obtain ⟨-, -, he, hE⟩ := hrest c rfl
    rw [takeExponent?, if_neg (not_or.2 ⟨he, hE⟩)]

/-- **A written whole number is read with its spelling.** -/
theorem readNumber?_integerNumeral (n : Int) (hrest : EndsNumber rest) :
    readNumber? (Text.integerNumeral n ++ rest) =
      some (String.ofList (Text.integerNumeral n), rest) := by
  have hwhole := takeWhole?_numeral n.natAbs hrest
  by_cases hn : n < 0
  · simp [Text.integerNumeral, hn, readNumber?, takeMinus, hwhole,
      takeFraction?_of_endsNumber hrest, takeExponent?_of_endsNumber hrest]
  · have hminus : takeMinus (Text.numeral n.natAbs ++ rest) =
        ([], Text.numeral n.natAbs ++ rest) := by
      obtain ⟨c, t, hcons⟩ := List.exists_cons_of_ne_nil (Text.numeral_ne_nil n.natAbs)
      have hc : c ≠ '-' := by
        rintro rfl
        exact absurd (Text.isDigit_of_mem_numeral (hcons ▸ List.mem_cons_self)) (by decide)
      rw [hcons, List.cons_append]
      unfold takeMinus
      split
      · rename_i heq
        exact absurd (List.cons.inj heq).1 hc
      · rfl
    simp [Text.integerNumeral, hn, readNumber?, hminus, hwhole,
      takeFraction?_of_endsNumber hrest, takeExponent?_of_endsNumber hrest]

/-- A whole number starts with a digit or with its sign. -/
theorem exists_integerNumeral_eq_cons (n : Int) :
    ∃ c t, Text.integerNumeral n = c :: t ∧ (c.isDigit = true ∨ c = '-') := by
  by_cases hn : n < 0
  · exact ⟨'-', _, by rw [Text.integerNumeral, if_pos hn], Or.inr rfl⟩
  · obtain ⟨c, t, hcons⟩ := List.exists_cons_of_ne_nil (Text.numeral_ne_nil n.natAbs)
    exact ⟨c, t, by rw [Text.integerNumeral, if_neg hn, hcons],
      Or.inl (Text.isDigit_of_mem_numeral (hcons ▸ List.mem_cons_self))⟩

/-! ### Plain values -/

mutual

/-- A value whose strings denote texts and whose numbers are numerals of whole numbers. -/
def IsPlain : Json → Prop
  | null | bool _ => True
  | number spelling => ∃ n : Int, spelling.toList = Text.integerNumeral n
  | string text => text.isSome = true
  | array items => ItemsArePlain items
  | object fields => FieldsArePlain fields

/-- Items that are plain. -/
def ItemsArePlain : List Json → Prop
  | [] => True
  | j :: js => j.IsPlain ∧ ItemsArePlain js

/-- Fields whose keys denote texts and whose values are plain. -/
def FieldsArePlain : List (Option String × Json) → Prop
  | [] => True
  | (k, j) :: fs => k.isSome = true ∧ j.IsPlain ∧ FieldsArePlain fs

end

theorem itemsArePlain_iff {items : List Json} : ItemsArePlain items ↔ ∀ j ∈ items, j.IsPlain := by
  induction items with
  | nil => simp [ItemsArePlain]
  | cons j js ih => simp [ItemsArePlain, ih]

theorem fieldsArePlain_iff {fields : List (Option String × Json)} :
    FieldsArePlain fields ↔ ∀ f ∈ fields, f.1.isSome = true ∧ f.2.IsPlain := by
  induction fields with
  | nil => simp [FieldsArePlain]
  | cons f fs ih => simp [FieldsArePlain, ih, and_assoc]

theorem isPlain_ofString (s : String) : (ofString s).IsPlain := by
  simp [ofString, IsPlain]

theorem isPlain_array {items : List Json} (h : ∀ j ∈ items, j.IsPlain) : (array items).IsPlain :=
  itemsArePlain_iff.2 h

theorem isPlain_ofStrings (l : List String) : (ofStrings l).IsPlain :=
  isPlain_array (List.forall_mem_map.2 fun s _ ↦ isPlain_ofString s)

theorem isPlain_ofFields {fields : List (String × Json)} (h : ∀ f ∈ fields, f.2.IsPlain) :
    (ofFields fields).IsPlain := by
  rw [ofFields, IsPlain, fieldsArePlain_iff]
  exact List.forall_mem_map.2 fun f hf ↦ ⟨rfl, h f hf⟩

/-! ### One step of the readers -/

theorem skipBlanks_cons (h : isBlank c = false) : skipBlanks (c :: s) = c :: s := by
  rw [skipBlanks, List.dropWhile_cons_of_neg (by simp [h])]

theorem readValue?_string (fuel : Nat) (s : List Char) :
    readValue? (fuel + 1) ('"' :: s) = (readText? s).map fun r ↦ (.string r.1, r.2) := by
  rw [readValue?, skipBlanks_cons rfl]
  rfl

theorem readValue?_array_nil (fuel : Nat) (rest : List Char) :
    readValue? (fuel + 1) ('[' :: ']' :: rest) = some (.array [], rest) := by
  rw [readValue?, skipBlanks_cons rfl]
  simp only [skipBlanks_cons (show isBlank ']' = false from rfl)]

theorem readValue?_array (fuel : Nat) (hblank : isBlank c = false) (hc : c ≠ ']') :
    readValue? (fuel + 1) ('[' :: c :: s) =
      (readItems? fuel (c :: s)).map fun r ↦ (.array r.1, r.2) := by
  rw [readValue?, skipBlanks_cons rfl]
  simp only [skipBlanks_cons hblank]
  split
  · rename_i heq
    exact absurd (List.cons.inj heq).1 hc
  · rfl

theorem readValue?_object_nil (fuel : Nat) (rest : List Char) :
    readValue? (fuel + 1) ('{' :: '}' :: rest) = some (.object [], rest) := by
  rw [readValue?, skipBlanks_cons rfl]
  simp only [skipBlanks_cons (show isBlank '}' = false from rfl)]

theorem readValue?_object (fuel : Nat) (s : List Char) :
    readValue? (fuel + 1) ('{' :: '"' :: s) =
      (readFields? fuel ('"' :: s)).map fun r ↦ (.object r.1, r.2) := by
  rw [readValue?, skipBlanks_cons rfl]
  simp only [skipBlanks_cons (show isBlank '"' = false from rfl)]
  rfl

theorem isBlank_of_startsNumber (hc : c.isDigit = true ∨ c = '-') : isBlank c = false := by
  by_contra h
  simp only [isBlank, Bool.not_eq_false, Bool.or_eq_true, beq_iff_eq] at h
  obtain ((rfl | rfl) | rfl) | rfl := h <;> simp at hc

/-- What starts with a digit or a sign is read as a number. -/
theorem readValue?_number (fuel : Nat) (hc : c.isDigit = true ∨ c = '-') :
    readValue? (fuel + 1) (c :: s) = (readNumber? (c :: s)).map fun r ↦ (.number r.1, r.2) := by
  rw [readValue?, skipBlanks_cons (isBlank_of_startsNumber hc)]
  split
  case h_7 => rfl
  all_goals
    rename_i heq
    rw [(List.cons.inj heq).1] at hc
    simp at hc

theorem readItems?_last {j : Json} (h : readValue? fuel s = some (j, ']' :: rest)) :
    readItems? (fuel + 1) s = some ([j], rest) := by
  rw [readItems?, h]
  simp only [skipBlanks_cons (show isBlank ']' = false from rfl)]

theorem readItems?_more {j : Json} (h : readValue? fuel s = some (j, ',' :: rest)) :
    readItems? (fuel + 1) s = (readItems? fuel rest).map (consItem j) := by
  rw [readItems?, h]
  simp only [skipBlanks_cons (show isBlank ',' = false from rfl)]

section Fields

variable {k : Option String} {j : Json} {t : List Char}

theorem readFields?_last (hk : readText? s = some (k, ':' :: t))
    (hj : readValue? fuel t = some (j, '}' :: rest)) :
    readFields? (fuel + 1) ('"' :: s) = some ([(k, j)], rest) := by
  rw [readFields?, skipBlanks_cons rfl]
  simp only [hk, skipBlanks_cons (show isBlank ':' = false from rfl), hj,
    skipBlanks_cons (show isBlank '}' = false from rfl)]

theorem readFields?_more (hk : readText? s = some (k, ':' :: t))
    (hj : readValue? fuel t = some (j, ',' :: rest)) :
    readFields? (fuel + 1) ('"' :: s) = (readFields? fuel rest).map (consField k j) := by
  rw [readFields?, skipBlanks_cons rfl]
  simp only [hk, skipBlanks_cons (show isBlank ':' = false from rfl), hj,
    skipBlanks_cons (show isBlank ',' = false from rfl)]

end Fields

/-! ### Values -/

/-- A written value starts neither with a blank nor with the end of an array. -/
theorem exists_writeCompact_eq_cons {j : Json} (hj : j.IsPlain) :
    ∃ c s, j.writeCompact = c :: s ∧ isBlank c = false ∧ c ≠ ']' := by
  cases j with
  | null => exact ⟨'n', _, rfl, by decide⟩
  | bool b => cases b <;> exact ⟨_, _, rfl, by decide⟩
  | number spelling =>
    obtain ⟨n, hn⟩ := hj
    obtain ⟨c, t, hcons, hc⟩ := exists_integerNumeral_eq_cons n
    refine ⟨c, t, hn.trans hcons, isBlank_of_startsNumber hc, ?_⟩
    rintro rfl
    simp at hc
  | string text => exact ⟨'"', _, rfl, by decide⟩
  | array items => exact ⟨'[', _, rfl, by decide⟩
  | object fields => exact ⟨'{', _, rfl, by decide⟩

mutual

/-- **A plain value is read up to where its text ends.** -/
theorem readValue?_writeCompact : ∀ (j : Json) {fuel : Nat} {rest : List Char}, j.IsPlain →
    2 * j.writeCompact.length + 1 ≤ fuel → EndsNumber rest →
    readValue? fuel (j.writeCompact ++ rest) = some (j, rest)
  | null, fuel + 1, _, _, _, _ => rfl
  | bool true, fuel + 1, _, _, _, _ => rfl
  | bool false, fuel + 1, _, _, _, _ => rfl
  | number spelling, fuel + 1, rest, hj, _, hrest => by
    obtain ⟨n, hn⟩ := hj
    obtain ⟨c, t, hcons, hc⟩ := exists_integerNumeral_eq_cons n
    have hread := readNumber?_integerNumeral n hrest
    rw [hcons, List.cons_append] at hread
    rw [writeCompact, hn, hcons, List.cons_append, readValue?_number fuel hc, hread, ← hcons, ← hn]
    simp
  | string (some text), fuel + 1, rest, _, _, _ => by
    rw [writeCompact, writeText_some_append, readValue?_string, readText?_written]
    rfl
  | array [], fuel + 1, rest, _, _, _ => readValue?_array_nil fuel rest
  | array (j :: js), fuel + 1, rest, hj, hfuel, _ => by
    obtain ⟨c, s, hcons, hblank, hc⟩ := exists_writeCompact_eq_cons hj.1
    have hitems : readItems? fuel (writeItems (j :: js) ++ ']' :: rest) = some (j :: js, rest) := by
      refine readItems?_writeItems j js hj ?_
      simp only [writeCompact, List.length_cons, List.length_append] at hfuel
      omega
    have hfirst : ∃ t, writeItems (j :: js) ++ ']' :: rest = c :: t := by
      cases js <;> simp [writeItems, hcons]
    obtain ⟨t, ht⟩ := hfirst
    rw [ht] at hitems
    rw [writeCompact, List.cons_append, List.cons_append, List.append_assoc, List.singleton_append,
      ht, readValue?_array fuel hblank hc, hitems]
    rfl
  | object [], fuel + 1, rest, _, _, _ => readValue?_object_nil fuel rest
  | object ((some k, j) :: fs), fuel + 1, rest, hj, hfuel, _ => by
    have hfields : readFields? fuel (writeFields ((some k, j) :: fs) ++ '}' :: rest) =
        some ((some k, j) :: fs, rest) := by
      refine readFields?_writeFields (some k) j fs hj ?_
      simp only [writeCompact, List.length_cons, List.length_append] at hfuel
      omega
    have hfirst : ∃ t, writeFields ((some k, j) :: fs) ++ '}' :: rest = '"' :: t := by
      cases fs <;> simp [writeFields, writeText, writeString]
    obtain ⟨t, ht⟩ := hfirst
    rw [ht] at hfields
    rw [writeCompact, List.cons_append, List.cons_append, List.append_assoc, List.singleton_append,
      ht, readValue?_object fuel, hfields]
    rfl

/-- Plain items are read up to the closing bracket. -/
theorem readItems?_writeItems : ∀ (j : Json) (js : List Json) {fuel : Nat} {rest : List Char},
    ItemsArePlain (j :: js) → 2 * (writeItems (j :: js)).length + 2 ≤ fuel →
    readItems? fuel (writeItems (j :: js) ++ ']' :: rest) = some (j :: js, rest)
  | j, [], fuel + 1, rest, hj, hfuel => by
    simp only [writeItems] at hfuel ⊢
    exact readItems?_last (readValue?_writeCompact j hj.1 (by omega)
      (endsNumber_cons rfl (by decide) (by decide) (by decide)))
  | j, k :: ks, fuel + 1, rest, hj, hfuel => by
    simp only [writeItems.eq_3 j (k :: ks) nofun, List.length_append, List.length_cons] at hfuel ⊢
    rw [List.append_assoc, List.cons_append, readItems?_more (readValue?_writeCompact j hj.1
      (by omega) (endsNumber_cons rfl (by decide) (by decide) (by decide))),
      readItems?_writeItems k ks hj.2 (by omega)]
    rfl

/-- Plain fields are read up to the closing brace. -/
theorem readFields?_writeFields : ∀ (k : Option String) (j : Json)
    (fs : List (Option String × Json)) {fuel : Nat} {rest : List Char},
    FieldsArePlain ((k, j) :: fs) → 2 * (writeFields ((k, j) :: fs)).length + 2 ≤ fuel →
    readFields? fuel (writeFields ((k, j) :: fs) ++ '}' :: rest) = some ((k, j) :: fs, rest)
  | some k, j, [], fuel + 1, rest, hj, hfuel => by
    simp only [writeFields, List.length_append, List.length_cons] at hfuel ⊢
    rw [List.append_assoc, writeText_some_append, List.cons_append]
    exact readFields?_last (readText?_written k _) (readValue?_writeCompact j hj.2.1 (by omega)
      (endsNumber_cons rfl (by decide) (by decide) (by decide)))
  | some k, j, (l, i) :: fs, fuel + 1, rest, hj, hfuel => by
    simp only [writeFields.eq_3 (some k) j ((l, i) :: fs) nofun, List.length_append,
      List.length_cons] at hfuel ⊢
    rw [List.append_assoc, List.append_assoc, List.cons_append, writeText_some_append,
      List.cons_append,
      readFields?_more (readText?_written k _) (readValue?_writeCompact j hj.2.1 (by omega)
        (endsNumber_cons rfl (by decide) (by decide) (by decide))),
      readFields?_writeFields l i fs hj.2.2 (by omega)]
    rfl

end

/-- **A written value is read as itself.** -/
theorem read?_compact {j : Json} (hj : j.IsPlain) : read? j.compact = some j := by
  have hread : readValue? (2 * j.writeCompact.length + 2) (j.writeCompact ++ []) = some (j, []) :=
    readValue?_writeCompact j hj (by omega) endsNumber_nil
  rw [List.append_nil] at hread
  rw [read?, compact, String.toList_ofList, readChars?, hread]
  rfl

end MethodFingerprint.Json
