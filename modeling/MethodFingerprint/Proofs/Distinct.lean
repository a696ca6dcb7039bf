import Mathlib.Data.List.Induction
import Mathlib.Data.List.Nodup

/-!
# Values kept once

`List.eraseDups` keeps every value of a list where it first occurs. Ids, strings and signatures are
all made distinct in this way. The lemmas go by induction from the end of the list, where one value
more is either known or put behind the others (`eraseDups_concat`).
-/

namespace MethodFingerprint

variable {α β : Type} [DecidableEq α] [DecidableEq β]

/-- A further value is kept only if it is new. -/
theorem eraseDups_concat (l : List α) (a : α) :
    (l ++ [a]).eraseDups = if a ∈ l.eraseDups then l.eraseDups else l.eraseDups ++ [a] := by
  rw [List.eraseDups_append]
  by_cases ha : a ∈ l
  · have hnone : [a].removeAll l = [] := by simp [List.removeAll, ha]
    rw [if_pos (List.mem_eraseDups.2 ha), hnone, List.eraseDups_nil, List.append_nil]
  · have hone : [a].removeAll l = [a] := by simp [List.removeAll, ha]
    rw [if_neg fun hmem ↦ ha (List.mem_eraseDups.1 hmem), hone, List.eraseDups_cons]
    rfl

/-- Every value is kept once. -/
theorem nodup_eraseDups (l : List α) : l.eraseDups.Nodup := by
  induction l using List.reverseRecOn with
  | nil => exact List.nodup_nil
  | append_singleton l a ih =>
    rw [eraseDups_concat]
    split
    · exact ih
    · rename_i hnew
      rw [← List.concat_eq_append]
      exact ih.concat hnew

/-- The values stand in the order of the list. -/
theorem eraseDups_sublist (l : List α) : l.eraseDups.Sublist l := by
  induction l using List.reverseRecOn with
  | nil => exact .slnil
  | append_singleton l a ih =>
    rw [eraseDups_concat]
    split
    · exact ih.trans (List.sublist_append_left _ _)
    · exact ih.append_right [a]

/-- Values that a function tells apart are kept once, like what it makes of them. -/
theorem eraseDups_map {f : α → β} {l : List α} (h : ∀ a ∈ l, ∀ b ∈ l, f a = f b → a = b) :
    (l.map f).eraseDups = l.eraseDups.map f := by
  induction l using List.reverseRecOn with
  | nil => rfl
  | append_singleton l a ih =>
    have hl : ∀ b ∈ l, ∀ c ∈ l, f b = f c → b = c := fun b hb c hc ↦
      h b (List.mem_append_left _ hb) c (List.mem_append_left _ hc)
    have hmem : f a ∈ l.eraseDups.map f ↔ a ∈ l.eraseDups := by
      refine ⟨fun hfa ↦ ?_, List.mem_map_of_mem⟩
      obtain ⟨b, hb, heq⟩ := List.mem_map.1 hfa
      have hbl : b ∈ l := List.mem_eraseDups.1 hb
      rwa [← h b (List.mem_append_left _ hbl) a List.mem_concat_self heq]
    rw [List.map_append, List.map_singleton, eraseDups_concat, eraseDups_concat, ih hl]
    by_cases ha : a ∈ l.eraseDups
    · rw [if_pos (hmem.2 ha), if_pos ha]
    · rw [if_neg (mt hmem.1 ha), if_neg ha, List.map_append, List.map_singleton]

end MethodFingerprint
