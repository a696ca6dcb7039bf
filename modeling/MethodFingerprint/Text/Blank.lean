/-!
# Blank characters and trimming

A character is **blank** when it carries the Unicode property `White_Space`. Core's own test knows
only the blanks of ASCII, so the table stands here, and every piece of the library that skips
blanks — around the sections of a pattern, between the arguments of one — skips exactly these.

Texts are handled as lists of characters, where trimming is `dropWhile` from either end.
-/

namespace MethodFingerprint.Text

/-- The Unicode property `White_Space`. -/
def isBlank (c : Char) : Bool :=
  let n := c.toNat
  (0x9 ≤ n && n ≤ 0xD) || n == 0x20 || n == 0x85 || n == 0xA0 || n == 0x1680 ||
    (0x2000 ≤ n && n ≤ 0x200A) || n == 0x2028 || n == 0x2029 || n == 0x202F || n == 0x205F ||
    n == 0x3000

/-! ### Trimming -/

/-- Drops the blanks a text starts with. -/
def trimStart (s : List Char) : List Char :=
  s.dropWhile isBlank

/-- Drops the blanks a text ends with. -/
def trimEnd (s : List Char) : List Char :=
  (s.reverse.dropWhile isBlank).reverse

/-- Drops the blanks at both ends. -/
def trim (s : List Char) : List Char :=
  trimEnd (trimStart s)

@[simp] theorem trimStart_nil : trimStart [] = [] := rfl

@[simp] theorem trimEnd_nil : trimEnd [] = [] := rfl

/-! ### Cutting a text -/

/-- What follows `head` in a text that starts with it. -/
def afterHead? : List Char → List Char → Option (List Char)
  | [], s => some s
  | _ :: _, [] => none
  | h :: head, c :: s => if h = c then afterHead? head s else none

/-- What precedes `c` in a text that ends with it. -/
def beforeLast? (c : Char) (s : List Char) : Option (List Char) :=
  if s.getLast? = some c then some s.dropLast else none

/-- The two sides of the first `c`. -/
def splitFirst? (c : Char) : List Char → Option (List Char × List Char)
  | [] => none
  | d :: s => if d = c then some ([], s) else (splitFirst? c s).map fun p ↦ (d :: p.1, p.2)

/-- Whether a text occurs somewhere in another one. -/
def occursIn (part : List Char) : List Char → Bool
  | [] => part.isEmpty
  | c :: s => part.isPrefixOf (c :: s) || occursIn part s

/-- The pieces between the line feeds: one more piece than there are line feeds. -/
def lines : List Char → List (List Char)
  | [] => [[]]
  | c :: s =>
    if c = '\n' then [] :: lines s
    else match lines s with
      | [] => [[c]]
      | l :: ls => (c :: l) :: ls

/-- Every text has a line. -/
theorem lines_ne_nil (s : List Char) : lines s ≠ [] := by
  cases s with
  | nil => simp [lines]
  | cons c s =>
    unfold lines
    split
    · exact List.cons_ne_nil _ _
    · split <;> exact List.cons_ne_nil _ _

/-- **A text is what stands before its head followed by the rest.** -/
theorem afterHead?_eq_some {head s rest : List Char} :
    afterHead? head s = some rest ↔ s = head ++ rest := by
  induction head generalizing s with
  | nil => simp [afterHead?, eq_comm]
  | cons h head ih =>
    cases s with
    | nil => simp [afterHead?]
    | cons c s => by_cases hc : h = c <;> simp [afterHead?, hc, ih, eq_comm]

/-- **The first separator cuts the text in two**, and nothing before it is a separator. -/
theorem splitFirst?_eq_some {c : Char} {s left right : List Char} :
    splitFirst? c s = some (left, right) ↔ s = left ++ c :: right ∧ c ∉ left := by
  induction s generalizing left with
  | nil => simp [splitFirst?]
  | cons d s ih =>
    by_cases hd : d = c
    · subst hd
      cases left with
      | nil => simp [splitFirst?, eq_comm]
      | cons e left =>
        simp only [splitFirst?, if_true, Option.some.injEq, Prod.mk.injEq, List.cons_append,
          List.cons.injEq, List.mem_cons, not_or]
        constructor
        · rintro ⟨h, -⟩; cases h
        · rintro ⟨⟨rfl, -⟩, h, -⟩; exact absurd rfl h
    · cases left with
      | nil => simp [splitFirst?, hd]
      | cons e left =>
        simp only [splitFirst?, if_neg hd, Option.map_eq_some_iff, Prod.mk.injEq, List.cons.injEq,
          Prod.exists, List.cons_append, List.mem_cons, not_or]
        constructor
        · rintro ⟨l, r, h, ⟨rfl, rfl⟩, rfl⟩
          obtain ⟨rfl, hl⟩ := ih.1 h
          exact ⟨⟨rfl, rfl⟩, fun h' ↦ hd h'.symm, hl⟩
        · rintro ⟨⟨rfl, rfl⟩, -, hl⟩
          exact ⟨left, right, ih.2 ⟨rfl, hl⟩, ⟨rfl, rfl⟩, rfl⟩

end MethodFingerprint.Text
