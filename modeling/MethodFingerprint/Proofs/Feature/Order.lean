import MethodFingerprint.Feature.Set
import Mathlib.Data.List.Destutter
import Mathlib.Data.List.Sort

/-!
# The order of the features

Features are ordered as texts, which is a strict linear order. So a list of different values has one
strictly ascending arrangement, and sorting finds it (`pairwise_lt_mergeSort`); in a list with
repetitions these are neighbours after sorting, and dropping them leaves such an arrangement
(`pairwise_lt_destutter_ne`). In an ascending arrangement a value is found by halving
(`binSearchContains_iff`). These lemmas are about any such order, as ids and strings are sorted in
the same way.

A token starts with its category. Of the four categories the access flags come first in the
alphabet, and so their token stands before every other one, whatever the two of them say
(`Feature.accessFlags_lt_ofReading`).
-/

namespace MethodFingerprint

section Sorting

variable {α : Type} [LT α] [Std.Trichotomous (α := α) (· < ·)] {l : List α}

/-- Of two different values one is less. -/
theorem lt_of_ne_of_not_lt {a b : α} (hne : a ≠ b) (h : ¬b < a) : a < b :=
  Classical.byContradiction fun hab ↦ hne (Std.Trichotomous.trichotomous a b hab h)

/-- Values that do not go down go up if all of them are different. -/
theorem pairwise_lt_of_nodup (h : l.Pairwise fun a b ↦ ¬b < a) (hnodup : l.Nodup) :
    l.Pairwise (· < ·) :=
  (hnodup.and h).imp fun ⟨hne, hle⟩ ↦ lt_of_ne_of_not_lt hne hle

variable [DecidableLT α] [Trans (α := α) (· < ·) (· < ·) (· < ·)] [Std.Asymm (α := α) (· < ·)]

/-- **After sorting, values do not go down.** -/
theorem pairwise_not_lt_mergeSort (l : List α) :
    (l.mergeSort fun a b ↦ !decide (b < a)).Pairwise fun a b ↦ ¬b < a := by
  have htrans (a b c : α) (hab : (!decide (b < a)) = true) (hbc : (!decide (c < b)) = true) :
      (!decide (c < a)) = true := by
    simp only [Bool.not_eq_true', decide_eq_false_iff_not] at hab hbc ⊢
    intro hca
    by_cases heq : a = b
    · exact hbc (heq ▸ hca)
    · exact hbc (Trans.trans hca (lt_of_ne_of_not_lt heq hab))
  have htotal (a b : α) : (!decide (b < a) || !decide (a < b)) = true := by
    simp only [Bool.or_eq_true, Bool.not_eq_true', decide_eq_false_iff_not]
    by_cases hba : b < a
    · exact Or.inr fun hab ↦ Std.Asymm.asymm _ _ hab hba
    · exact Or.inl hba
  refine (List.pairwise_mergeSort htrans htotal l).imp fun hle ↦ ?_
  simpa using hle

/-- **Sorting different values lists them in strictly ascending order.** -/
theorem pairwise_lt_mergeSort (h : l.Nodup) :
    (l.mergeSort fun a b ↦ !decide (b < a)).Pairwise (· < ·) :=
  pairwise_lt_of_nodup (pairwise_not_lt_mergeSort l)
    ((List.mergeSort_perm l fun a b ↦ !decide (b < a)).nodup_iff.2 h)

end Sorting

section Neighbours

variable {α : Type} [DecidableEq α] {l : List α} {a : α}

/-- Of equal neighbours one stays, so no value is lost. -/
theorem mem_destutter_ne : a ∈ l.destutter (· ≠ ·) ↔ a ∈ l := by
  cases l with
  | nil => rw [List.destutter_nil]
  | cons b l =>
    rw [List.destutter_cons']
    induction l generalizing b with
    | nil => rfl
    | cons c l ih =>
      rw [List.destutter'_cons]
      split
      · rw [List.mem_cons, ih, List.mem_cons (b := b)]
      · rename_i heq
        obtain rfl : b = c := Decidable.not_not.1 heq
        rw [ih, List.mem_cons, List.mem_cons, List.mem_cons, or_self_left]

/-- **Without equal neighbours, values that do not go down go up.** -/
theorem pairwise_lt_destutter_ne [LT α] [Std.Trichotomous (α := α) (· < ·)]
    [Trans (α := α) (· < ·) (· < ·) (· < ·)] (h : l.Pairwise fun a b ↦ ¬b < a) :
    (l.destutter (· ≠ ·)).Pairwise (· < ·) := by
  have hle : (l.destutter (· ≠ ·)).Pairwise fun a b ↦ ¬b < a :=
    h.sublist (List.destutter_sublist _ l)
  have hne : (l.destutter (· ≠ ·)).IsChain (· ≠ ·) := List.isChain_destutter _ l
  have hlt : (l.destutter (· ≠ ·)).IsChain (· < ·) := List.isChain_iff_getElem.2 fun i hi ↦
    lt_of_ne_of_not_lt (hne.getElem i hi) (hle.isChain.getElem i hi)
  exact hlt.pairwise

end Neighbours

section Halving

variable {α : Type} [LT α] [Std.Asymm (α := α) (· < ·)] {l : List α} {as : Array α} {k : α}

/-- In an ascending array the smaller of two values stands first. -/
theorem lt_of_getElem_lt (h : as.toList.Pairwise (· < ·)) {i j : Nat} {hi : i < as.size}
    {hj : j < as.size} (hlt : as[i] < as[j]) : i < j := by
  rcases Nat.lt_trichotomy i j with hij | rfl | hji
  · exact hij
  · exact absurd hlt (Std.Asymm.asymm _ _ hlt)
  · exact absurd hlt (Std.Asymm.asymm _ _ (List.pairwise_iff_getElem.1 h j i hj hi hji))

variable [DecidableLT α] [Std.Trichotomous (α := α) (· < ·)]

/-- **Halving finds what stands between the bounds.** The half that is given up has the value in the
middle between itself and the key. -/
theorem binSearchAux_iff (h : as.toList.Pairwise (· < ·)) (lo : Fin (as.size + 1))
    (hi : Fin as.size) (hle : lo.1 ≤ hi.1) :
    Array.binSearchAux (fun a b ↦ decide (a < b)) Option.isSome as k lo hi hle = true ↔
      ∃ i, ∃ _ : i < as.size, lo.1 ≤ i ∧ i ≤ hi.1 ∧ as[i] = k := by
  have hright {m i : Nat} {hm : m < as.size} {hi : i < as.size}
      (hlt : decide (as[m] < k) = true) (hk : as[i] = k) : m < i :=
    lt_of_getElem_lt h (hk ▸ of_decide_eq_true hlt)
  have hleft {m i : Nat} {hm : m < as.size} {hi : i < as.size}
      (hlt : decide (k < as[m]) = true) (hk : as[i] = k) : i < m :=
    lt_of_getElem_lt h (hk ▸ of_decide_eq_true hlt)
  fun_induction Array.binSearchAux (fun a b ↦ decide (a < b)) Option.isSome as k lo hi hle with
  | case1 lo hi hle m a hlt _ _ ih =>
    have hlo : lo.1 ≤ m := by omega
    refine ih.trans (exists₂_congr fun i _ ↦ ⟨?_, ?_⟩)
    · rintro ⟨hm, hhi, hk⟩
      exact ⟨hlo.trans (Nat.le_of_succ_le hm), hhi, hk⟩
    · rintro ⟨-, hhi, hk⟩
      exact ⟨hright hlt hk, hhi, hk⟩
  | case2 lo hi hle m a hlt hlast =>
    refine iff_of_false Bool.false_ne_true ?_
    rintro ⟨i, _, -, hhi, hk⟩
    exact hlast ((hright hlt hk).trans_le hhi)
  | case3 lo hi hle m a _ hlt hfirst =>
    refine iff_of_false Bool.false_ne_true ?_
    rintro ⟨i, _, hlo, -, hk⟩
    have hm : i < m := hleft hlt hk
    omega
  | case4 lo hi hle m a _ hlt _ _ ih =>
    have hhi : m ≤ hi.1 := by omega
    refine ih.trans (exists₂_congr fun i _ ↦ ⟨?_, ?_⟩)
    · rintro ⟨hlo, hm, hk⟩
      exact ⟨hlo, hm.trans ((Nat.sub_le m 1).trans hhi), hk⟩
    · rintro ⟨hlo, -, hk⟩
      exact ⟨hlo, Nat.le_sub_one_of_lt (hleft hlt hk), hk⟩
  | case5 lo hi hle m a hak hka _ =>
    rw [decide_eq_true_iff] at hak hka
    have heq : a = k := Std.Trichotomous.trichotomous (r := (· < ·)) a k hak hka
    exact iff_of_true rfl ⟨m, by omega, by omega, by omega, heq⟩

/-- **Halving finds the members of an ascending list.** -/
theorem binSearchContains_iff (h : l.Pairwise (· < ·)) :
    l.toArray.binSearchContains k (fun a b ↦ decide (a < b)) = true ↔ k ∈ l := by
  rcases Nat.eq_zero_or_pos l.length with hzero | hpos
  · rw [List.length_eq_zero_iff] at hzero
    subst hzero
    simp [Array.binSearchContains]
  · have hlast : l.length - 1 < l.length := Nat.sub_one_lt_of_lt hpos
    simp only [Array.binSearchContains, List.size_toArray, hpos, hlast, dif_pos, if_pos,
      Nat.zero_le]
    rw [binSearchAux_iff h, ← List.mem_toArray, Array.mem_iff_getElem]
    refine exists₂_congr fun i hi ↦ ⟨fun ⟨_, _, hk⟩ ↦ hk, fun hk ↦ ?_⟩
    exact ⟨Nat.zero_le i, Nat.le_sub_one_of_lt hi, hk⟩

end Halving

namespace Feature

instance : Std.Irrefl (α := Feature) (· < ·) := ⟨lt_irrefl⟩

instance : Trans (α := Feature) (· < ·) (· < ·) (· < ·) := ⟨lt_trans⟩

instance : Std.Asymm (α := Feature) (· < ·) :=
  ⟨fun f _ h h' ↦ lt_irrefl f (lt_trans h h')⟩

instance : Std.Trichotomous (α := Feature) (· < ·) :=
  ⟨fun _ _ h h' ↦ Decidable.byContradiction fun hne ↦ h' (lt_of_not_lt_of_ne h hne)⟩

/-- **The token of access flags stands before all tokens of other categories.** -/
theorem accessFlags_lt_ofReading (mask : UInt32) {r : Reading} (h : r.category ≠ .accessFlags) :
    accessFlags mask < ofReading r := by
  have hlt (c : Category) (value : String) {d : Char} {name : List Char}
      (hname : c.text.toList = d :: name) (hd : 'a' < d) :
      accessFlags mask < ofCategory c value := by
    show (ofCategory .accessFlags _).token.toList < (ofCategory c value).token.toList
    have hflags : Category.accessFlags.text.toList = 'a' :: "ccessFlags".toList := rfl
    simp only [ofCategory, String.toList_append, hname, hflags, List.cons_append]
    exact List.Lex.rel hd
  cases r with
  | returnType descriptor => exact hlt .returnType descriptor rfl (by decide)
  | parameter index descriptor =>
    have hname : (Category.parameter index).text.toList =
        'p' :: "arameter_".toList ++ Text.numeral index := by
      rw [Category.text, String.toList_append, String.toList_ofList (l := Text.numeral index)]
      rfl
    exact hlt _ descriptor hname (by decide)
  | string literal => exact hlt .strings literal rfl (by decide)
  | accessFlags mask' => exact absurd rfl h

/-- Tokens of strings stand in the order of the strings. -/
theorem string_lt_string {literal literal' : String} (h : literal < literal') :
    string literal < string literal' := by
  show (ofCategory .strings literal).token < (ofCategory .strings literal').token
  rw [String.lt_iff] at h ⊢
  simp only [ofCategory, String.toList_append]
  exact List.append_left_lt h

end Feature

end MethodFingerprint
