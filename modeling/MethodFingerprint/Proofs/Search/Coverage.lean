import MethodFingerprint.Proofs.Search.Target
import MethodFingerprint.Proofs.Search.Walk

/-!
# What the walk has covered

The invariant that carries both searches for minimal fingerprints, the one that goes to its end and
the one that a budget cuts short. It has three parts.

* **Order** (`Orderly`). The pending branches stand by size, and their sizes differ by at most one.
  No two of them lead to the same combination, and none leads to one that was met before; so the
  guard against repetitions never fires.
* **Soundness** of the hits: they isolate the target, none is listed twice, and none is larger by
  more than one than any pending branch.
* **Coverage**: every minimal combination is a hit or lies ahead of a pending branch. Nothing is
  lost by leaving out an extension that narrows nothing down, since a minimal combination has no
  member that could be spared, and nothing by not growing a hit, since no proper part of a minimal
  combination isolates the target.

With nothing pending, coverage makes every minimal combination a hit. In front of a cut it does so
for the combinations that are smaller than some hit: what lies ahead of a pending branch is larger
than the branch, and hits are not (`Progress.mem_hits_of_length_lt`).

The seeding of the walk is seen as the growth of one branch without members, so that it is covered
by the same step (`Progress.file`) as everything after it.
-/

namespace MethodFingerprint

namespace Branch

variable {b : Branch} {c later : List Ranked} {r : Ranked} {cs : List Slot}

/-- A combination lies ahead of a branch if it is the branch with further features. -/
def LeadsTo (b : Branch) (c : List Ranked) : Prop :=
  ∃ rest, rest ≠ [] ∧ rest.Sublist b.later ∧ c = b.members ++ rest

theorem LeadsTo.length_lt (h : b.LeadsTo c) : b.members.length < c.length := by
  obtain ⟨rest, hne, -, rfl⟩ := h
  have := List.length_pos_of_ne_nil hne
  rw [List.length_append]
  omega

theorem LeadsTo.starts (h : b.LeadsTo c) : b.members <+: c := by
  obtain ⟨rest, -, -, rfl⟩ := h
  exact List.prefix_append _ _

/-- What lies ahead without a feature does not start with it. -/
theorem LeadsTo.not_starts (h : LeadsTo { b with later } c) (hr : r ∉ later) :
    ¬(b.grow r cs later).members <+: c := by
  obtain ⟨rest, -, hsub, rfl⟩ := h
  intro hpre
  obtain ⟨tail, rfl⟩ := (List.prefix_append_right_inj b.members).1 hpre
  exact hr (hsub.subset List.mem_cons_self)

theorem LeadsTo.of_skip (h : LeadsTo { b with later } c) (hb : b.later = r :: later) :
    b.LeadsTo c := by
  obtain ⟨rest, hne, hsub, rfl⟩ := h
  exact ⟨rest, hne, hb ▸ hsub.cons r, rfl⟩

theorem LeadsTo.of_grow (h : (b.grow r cs later).LeadsTo c) (hb : b.later = r :: later) :
    b.LeadsTo c := by
  obtain ⟨rest, hne, hsub, rfl⟩ := h
  refine ⟨r :: rest, List.cons_ne_nil _ _, hb ▸ hsub.cons_cons r, ?_⟩
  simp [grow]

theorem leadsTo_grow (cs : List Slot) (hb : b.later = r :: later) :
    b.LeadsTo (b.grow r cs later).members :=
  ⟨[r], List.cons_ne_nil _ _, hb ▸ (List.nil_sublist later).cons_cons r, rfl⟩

/-- **What lies ahead divides in three**: without the next feature, the next feature alone, and the
next feature with further ones. -/
theorem LeadsTo.split (h : b.LeadsTo c) (hb : b.later = r :: later) (cs : List Slot) :
    LeadsTo { b with later } c ∨ c = (b.grow r cs later).members ∨
      (b.grow r cs later).LeadsTo c := by
  obtain ⟨rest, hne, hsub, rfl⟩ := h
  rw [hb] at hsub
  cases hsub with
  | cons _ hsub => exact Or.inl ⟨rest, hne, hsub, rfl⟩
  | cons_cons _ hsub =>
    rename_i rest
    cases rest with
    | nil => exact Or.inr (Or.inl rfl)
    | cons r' rest =>
      refine Or.inr (Or.inr ⟨r' :: rest, List.cons_ne_nil _ _, hsub, ?_⟩)
      simp [grow]

/-- The candidates of a branch are the slots that its members share, in ascending order. -/
structure Shared (b : Branch) : Prop where
  ne_nil : b.members ≠ []
  ascending : b.candidates.Pairwise (· < ·)
  mem_candidates : ∀ s, s ∈ b.candidates ↔ ∀ r ∈ b.members, s ∈ r.postings

/-- A single feature is shared by the slots of its posting list. -/
theorem shared_single (hr : r.postings.Pairwise (· < ·)) (later : List Ranked) :
    Shared ⟨[r], r.postings, later⟩ where
  ne_nil := List.cons_ne_nil _ _
  ascending := hr
  mem_candidates s := by simp

/-- An extension is shared by the candidates that have the further feature too. -/
theorem Shared.extension (h : b.Shared) (hr : r.postings.Pairwise (· < ·)) (later : List Ranked) :
    (b.extension r later).Shared where
  ne_nil := List.append_ne_nil_of_right_ne_nil _ (List.cons_ne_nil _ _)
  ascending := Slots.ascending_intersect h.ascending
  mem_candidates s := by
    show s ∈ Slots.intersect b.candidates r.postings ↔ ∀ r' ∈ b.members ++ [r], s ∈ r'.postings
    rw [Slots.mem_intersect h.ascending hr, h.mem_candidates, List.forall_mem_append,
      List.forall_mem_singleton]

/-- **One candidate is left exactly when the members isolate the target.** -/
theorem Shared.length_eq_one_iff {t : Target} (ht : t.WellRanked) (h : b.Shared)
    (hsub : b.members ⊆ t.ranked) : b.candidates.length = 1 ↔ t.Isolates b.members := by
  have hslot : t.slot ∈ b.candidates :=
    (h.mem_candidates _).2 fun r hr ↦ ht.slot_mem r (hsub hr)
  have hiff : t.Isolates b.members ↔ b.candidates = [t.slot] := by
    rw [Slots.eq_singleton_iff h.ascending]
    simp only [h.mem_candidates]
    exact and_iff_right h.ne_nil
  rw [hiff, List.length_eq_one_iff]
  constructor
  · rintro ⟨s, hs⟩
    rw [hs, List.mem_singleton] at hslot
    rw [hs, hslot]
  · exact fun h ↦ ⟨_, h⟩

end Branch

namespace Walk

/-! ### Order among the pending branches -/

/-- The pending branches stand by size, and all that lies ahead of them is new. -/
structure Orderly (t : Target) (seen : Std.HashSet (List Nat)) (pending : List Branch) : Prop where
  sublist : ∀ b ∈ pending, (b.members ++ b.later).Sublist t.ranked
  sizes : pending.Pairwise fun b b' ↦
    b.members.length ≤ b'.members.length ∧ b'.members.length ≤ b.members.length + 1
  disjoint : pending.Pairwise fun b b' ↦ ∀ c, b.LeadsTo c → ¬b'.LeadsTo c
  fresh : ∀ b ∈ pending, ∀ c, b.LeadsTo c → c.map Ranked.rank ∉ seen

variable {t : Target} {seen : Std.HashSet (List Nat)} {pending waiting : List Branch} {b : Branch}
  {r : Ranked} {cs : List Slot} {c later : List Ranked} {hits : List (List Ranked)}

/-- A combination ahead of a branch is one of the target. -/
theorem Orderly.sublist_of_leadsTo (h : Orderly t seen pending) (hb : b ∈ pending)
    (hc : b.LeadsTo c) : c.Sublist t.ranked := by
  obtain ⟨rest, -, hsub, rfl⟩ := hc
  exact ((List.Sublist.refl b.members).append hsub).trans (h.sublist b hb)

/-- Branches may be put away. -/
theorem Orderly.of_sublist (h : Orderly t seen pending) (hsub : waiting.Sublist pending) :
    Orderly t seen waiting where
  sublist b hb := h.sublist b (hsub.subset hb)
  sizes := h.sizes.sublist hsub
  disjoint := h.disjoint.sublist hsub
  fresh b hb := h.fresh b (hsub.subset hb)

/-- Less may have been met. -/
theorem Orderly.of_insert {ranks : List Nat} (h : Orderly t (seen.insert ranks) pending) :
    Orderly t seen pending where
  sublist := h.sublist
  sizes := h.sizes
  disjoint := h.disjoint
  fresh b hb c hc hseen := h.fresh b hb c hc (Std.HashSet.mem_insert.2 (Or.inr hseen))

/-- A relation that holds along a list holds after its first member was replaced and another was
added at the end, if it holds of these. -/
theorem pairwise_replace_append {rel : Branch → Branch → Prop} {b₁ b₂ : Branch}
    (h : (b :: waiting).Pairwise rel) (hfirst : ∀ b' ∈ waiting, rel b b' → rel b₁ b')
    (hlast : ∀ b' ∈ waiting, rel b b' → rel b' b₂) (hends : rel b₁ b₂) :
    (b₁ :: (waiting ++ [b₂])).Pairwise rel := by
  obtain ⟨hb, hw⟩ := List.pairwise_cons.1 h
  rw [List.pairwise_cons, List.pairwise_append]
  refine ⟨fun b' hb' ↦ ?_, hw, List.pairwise_singleton _ _, fun b' hb' b'' hb'' ↦ ?_⟩
  · rcases List.mem_append.1 hb' with hb' | hb'
    · exact hfirst b' hb' (hb b' hb')
    · rw [List.mem_singleton.1 hb']
      exact hends
  · rw [List.mem_singleton.1 hb'']
    exact hlast b' hb' (hb b' hb')

/-- A feature that is next is none of the later ones. -/
theorem Orderly.not_mem_later (ht : t.WellRanked) (h : Orderly t seen (b :: waiting))
    (hb : b.later = r :: later) : r ∉ later := by
  have hsub : (b.members ++ r :: later).Sublist t.ranked := hb ▸ h.sublist b List.mem_cons_self
  have hnodup := (List.nodup_append.1 (ht.nodup.sublist hsub)).2.1
  exact (List.nodup_cons.1 hnodup).1

/-- What is ahead after the split was ahead before it, and is not the grown branch itself. -/
theorem Orderly.exists_leadsTo (ht : t.WellRanked) (h : Orderly t seen (b :: waiting))
    (hb : b.later = r :: later) {b' : Branch} (hc : b'.LeadsTo c)
    (hb' : b' ∈ { b with later } :: (waiting ++ [b.grow r cs later])) :
    ∃ b₀ ∈ b :: waiting, b₀.LeadsTo c ∧ c ≠ (b.grow r cs later).members := by
  rcases List.mem_cons.1 hb' with rfl | hb'
  · refine ⟨b, List.mem_cons_self, hc.of_skip hb, ?_⟩
    rintro rfl
    exact hc.not_starts (h.not_mem_later ht hb) List.prefix_rfl
  · rcases List.mem_append.1 hb' with hb' | hb'
    · refine ⟨b', List.mem_cons_of_mem b hb', hc, ?_⟩
      rintro rfl
      exact (List.pairwise_cons.1 h.disjoint).1 b' hb' _ (Branch.leadsTo_grow cs hb) hc
    · rw [List.mem_singleton.1 hb'] at hc
      refine ⟨b, List.mem_cons_self, hc.of_grow hb, ?_⟩
      rintro rfl
      exact Nat.lt_irrefl _ hc.length_lt

/-- **The branch at hand is split** into what lies ahead without its next feature and what lies
ahead with it; the grown branch is noted and waits at the end. -/
theorem Orderly.grow (ht : t.WellRanked) (h : Orderly t seen (b :: waiting))
    (hb : b.later = r :: later) :
    Orderly t (seen.insert ((b.grow r cs later).members.map Ranked.rank))
      ({ b with later } :: (waiting ++ [b.grow r cs later])) := by
  have hsub : (b.members ++ r :: later).Sublist t.ranked := hb ▸ h.sublist b List.mem_cons_self
  constructor
  · intro b' hb'
    rcases List.mem_cons.1 hb' with rfl | hb'
    · exact ((List.Sublist.refl b.members).append (List.sublist_cons_self r later)).trans hsub
    · rcases List.mem_append.1 hb' with hb' | hb'
      · exact h.sublist b' (List.mem_cons_of_mem b hb')
      · rw [List.mem_singleton.1 hb']
        simpa [Branch.grow] using hsub
  · refine pairwise_replace_append h.sizes (fun _ _ hb' ↦ hb') ?_ ?_
    · intro b' _ hb'
      simp only [Branch.grow, List.length_append, List.length_singleton]
      omega
    · simp only [Branch.grow, List.length_append, List.length_singleton]
      omega
  · refine pairwise_replace_append h.disjoint ?_ ?_ ?_
    · intro b' _ hb' c hc
      exact hb' c (hc.of_skip hb)
    · intro b' _ hb' c hc hc'
      exact hb' c (hc'.of_grow hb) hc
    · intro c hc hc'
      exact hc.not_starts (h.not_mem_later ht hb) hc'.starts
  · intro b' hb' c hc hseen
    obtain ⟨b₀, hb₀, hc₀, hne⟩ := h.exists_leadsTo ht hb hc hb'
    rcases Std.HashSet.mem_insert.1 hseen with heq | hseen
    · have hsub' : (b.grow r cs later).members.Sublist t.ranked :=
        h.sublist_of_leadsTo List.mem_cons_self (Branch.leadsTo_grow cs hb)
      have hcsub := h.sublist_of_leadsTo hb₀ hc₀
      exact hne (ht.eq_of_map_rank_eq hsub'.subset hcsub.subset (eq_of_beq heq)).symm
    · exact h.fresh b₀ hb₀ c hc₀ hseen

theorem Orderly.skip (ht : t.WellRanked) (h : Orderly t seen (b :: waiting))
    (hb : b.later = r :: later) (cs : List Slot) :
    Orderly t (seen.insert ((b.grow r cs later).members.map Ranked.rank))
      ({ b with later } :: waiting) :=
  (h.grow ht hb).of_sublist ((List.sublist_append_left _ _).cons_cons _)

/-! ### Hits and what lies ahead -/

/-- **The invariant of the walk**, on what it has found, what it has met and what is pending. -/
structure Progress (t : Target) (hits : List (List Ranked)) (seen : Std.HashSet (List Nat))
    (pending : List Branch) : Prop extends Orderly t seen pending where
  hits_isolate : ∀ c ∈ hits, c.Sublist t.ranked ∧ t.Isolates c
  hits_nodup : hits.Nodup
  hits_seen : ∀ c ∈ hits, c.map Ranked.rank ∈ seen
  hits_length : ∀ c ∈ hits, ∀ b ∈ pending, c.length ≤ b.members.length + 1
  covered : ∀ c, c.Sublist t.ranked → t.IsMinimal c → c ∈ hits ∨ ∃ b ∈ pending, b.LeadsTo c

namespace Progress

/-- **Minimal combinations smaller than a hit are hits.** What lies ahead of a pending branch is
larger than the branch, so at least as large as every hit. -/
theorem mem_hits_of_length_lt (h : Progress t hits seen pending) {c' : List Ranked}
    (hc : c.Sublist t.ranked) (hmin : t.IsMinimal c) (hc' : c' ∈ hits)
    (hlt : c.length < c'.length) : c ∈ hits := by
  refine (h.covered c hc hmin).resolve_right ?_
  rintro ⟨b, hb, hlead⟩
  have h₁ := hlead.length_lt
  have h₂ := h.hits_length c' hc' b hb
  omega

/-- **With nothing pending, every minimal combination is a hit.** -/
theorem mem_hits_of_done (h : Progress t hits seen []) (hc : c.Sublist t.ranked)
    (hmin : t.IsMinimal c) : c ∈ hits := by
  refine (h.covered c hc hmin).resolve_right ?_
  rintro ⟨b, hb, -⟩
  cases hb

/-- A branch without further features is put away: nothing lies ahead of it. -/
theorem put_away (h : Progress t hits seen (b :: waiting)) (hb : b.later = []) :
    Progress t hits seen waiting where
  toOrderly := h.toOrderly.of_sublist (List.sublist_cons_self b waiting)
  hits_isolate := h.hits_isolate
  hits_nodup := h.hits_nodup
  hits_seen := h.hits_seen
  hits_length c hc b' hb' := h.hits_length c hc b' (List.mem_cons_of_mem b hb')
  covered c hc hmin := by
    refine (h.covered c hc hmin).imp_right fun ⟨b', hb', hlead⟩ ↦ ?_
    rcases List.mem_cons.1 hb' with rfl | hb'
    · obtain ⟨rest, hne, hsub, -⟩ := hlead
      rw [hb] at hsub
      exact absurd (List.sublist_nil.1 hsub) hne
    · exact ⟨b', hb', hlead⟩

/-- What is split off was not met before. -/
theorem not_mem_seen (h : Progress t hits seen (b :: waiting)) (cs : List Slot)
    (hb : b.later = r :: later) : (b.grow r cs later).members.map Ranked.rank ∉ seen :=
  h.fresh b List.mem_cons_self _ (Branch.leadsTo_grow cs hb)

/-- Where a minimal combination is found after the split. -/
theorem covered_split (h : Progress t hits seen (b :: waiting)) (hb : b.later = r :: later)
    (cs : List Slot) (hc : c.Sublist t.ranked) (hmin : t.IsMinimal c) :
    c ∈ hits ∨ (∃ b' ∈ { b with later } :: waiting, b'.LeadsTo c) ∨
      c = (b.grow r cs later).members ∨ (b.grow r cs later).LeadsTo c := by
  refine (h.covered c hc hmin).imp_right fun ⟨b', hb', hlead⟩ ↦ ?_
  rcases List.mem_cons.1 hb' with rfl | hb'
  · exact (hlead.split hb cs).imp_left fun hlead ↦ ⟨_, List.mem_cons_self, hlead⟩
  · exact Or.inl ⟨b', List.mem_cons_of_mem _ hb', hlead⟩

theorem hits_length_skip (h : Progress t hits seen (b :: waiting)) (hc : c ∈ hits) :
    ∀ b' ∈ { b with later } :: waiting, c.length ≤ b'.members.length + 1 := by
  intro b' hb'
  rcases List.mem_cons.1 hb' with rfl | hb'
  · exact h.hits_length c hc b List.mem_cons_self
  · exact h.hits_length c hc b' (List.mem_cons_of_mem b hb')

/-- **An extension is left out** when no minimal combination starts with it. -/
theorem leave_out (ht : t.WellRanked) (h : Progress t hits seen (b :: waiting))
    (hb : b.later = r :: later) (cs : List Slot)
    (hout : ∀ c, c.Sublist t.ranked → t.IsMinimal c → ¬(b.grow r cs later).members <+: c) :
    Progress t hits seen ({ b with later } :: waiting) where
  toOrderly := (h.toOrderly.skip ht hb cs).of_insert
  hits_isolate := h.hits_isolate
  hits_nodup := h.hits_nodup
  hits_seen := h.hits_seen
  hits_length _ hc := h.hits_length_skip hc
  covered c hc hmin := by
    rcases h.covered_split hb cs hc hmin with hmem | hlead | rfl | hlead
    · exact Or.inl hmem
    · exact Or.inr hlead
    · exact absurd List.prefix_rfl (hout _ hc hmin)
    · exact absurd hlead.starts (hout c hc hmin)

/-- **An extension that isolates the target is a hit**, and nothing minimal lies ahead of it. -/
theorem hit (ht : t.WellRanked) (h : Progress t hits seen (b :: waiting))
    (hb : b.later = r :: later) (hi : t.Isolates (b.grow r cs later).members) :
    Progress t ((b.grow r cs later).members :: hits)
      (seen.insert ((b.grow r cs later).members.map Ranked.rank))
      ({ b with later } :: waiting) where
  toOrderly := h.toOrderly.skip ht hb cs
  hits_isolate := List.forall_mem_cons.2
    ⟨⟨h.sublist_of_leadsTo List.mem_cons_self (Branch.leadsTo_grow cs hb), hi⟩, h.hits_isolate⟩
  hits_nodup := List.nodup_cons.2
    ⟨fun hmem ↦ h.not_mem_seen cs hb (h.hits_seen _ hmem), h.hits_nodup⟩
  hits_seen := List.forall_mem_cons.2
    ⟨Std.HashSet.mem_insert_self, fun c hc ↦ Std.HashSet.mem_insert.2 (Or.inr (h.hits_seen c hc))⟩
  hits_length := by
    refine List.forall_mem_cons.2 ⟨fun b' hb' ↦ ?_, fun _ hc ↦ h.hits_length_skip hc⟩
    -- the branch at hand is the smallest
    have hle : b.members.length ≤ b'.members.length := by
      rcases List.mem_cons.1 hb' with rfl | hb'
      · exact Nat.le_refl _
      · exact ((List.pairwise_cons.1 h.sizes).1 b' hb').1
    simp only [Branch.grow, List.length_append, List.length_singleton]
    omega
  covered c hc hmin := by
    rcases h.covered_split hb cs hc hmin with hmem | hlead | rfl | hlead
    · exact Or.inl (List.mem_cons_of_mem _ hmem)
    · exact Or.inr hlead
    · exact Or.inl List.mem_cons_self
    · -- a minimal combination has no proper part that isolates the target
      have hsub : c ⊆ (b.grow r cs later).members := hmin.2 _ hlead.starts.subset hi
      have hle := (List.subperm_of_subset (ht.nodup.sublist hc) hsub).length_le
      exact absurd hlead.length_lt (Nat.not_lt.2 hle)

/-- **Any other extension waits**, larger by one than the branch at hand. -/
theorem wait (ht : t.WellRanked) (h : Progress t hits seen (b :: waiting))
    (hb : b.later = r :: later) (hi : ¬t.Isolates (b.grow r cs later).members) :
    Progress t hits (seen.insert ((b.grow r cs later).members.map Ranked.rank))
      ({ b with later } :: (waiting ++ [b.grow r cs later])) where
  toOrderly := h.toOrderly.grow ht hb
  hits_isolate := h.hits_isolate
  hits_nodup := h.hits_nodup
  hits_seen c hc := Std.HashSet.mem_insert.2 (Or.inr (h.hits_seen c hc))
  hits_length c hc b' hb' := by
    rw [← List.cons_append, List.mem_append, List.mem_singleton] at hb'
    rcases hb' with hb' | rfl
    · exact h.hits_length_skip hc b' hb'
    · have := h.hits_length c hc b List.mem_cons_self
      simp only [Branch.grow, List.length_append, List.length_singleton]
      omega
  covered c hc hmin := by
    rcases h.covered_split hb cs hc hmin with hmem | ⟨b', hb', hlead⟩ | rfl | hlead
    · exact Or.inl hmem
    · exact Or.inr ⟨b', by rw [← List.cons_append]; exact List.mem_append_left _ hb', hlead⟩
    · exact absurd hmin.1 hi
    · exact Or.inr ⟨_, List.mem_cons_of_mem _ List.mem_concat_self, hlead⟩

end Progress

/-! ### The invariant along a run -/

/-- **The invariant on states**, with the candidates of the pending branches. -/
structure Invariant (t : Target) (w : Walk) : Prop extends
    Progress t w.hits w.seen w.pending where
  shared : ∀ b ∈ w.pending, b.Shared

/-- Filing what was split off keeps the invariant: the candidates tell a hit from the rest. -/
theorem Progress.file {w : Walk} (ht : t.WellRanked)
    (h : Progress t w.hits seen (b :: w.frontier.toList)) (hb : b.later = r :: later)
    (hseen : w.seen = seen.insert ((b.grow r cs later).members.map Ranked.rank))
    (hshared : (b.grow r cs later).Shared) :
    Progress t (w.file (b.grow r cs later)).hits (w.file (b.grow r cs later)).seen
      ({ b with later } :: (w.file (b.grow r cs later)).frontier.toList) := by
  have hsub := h.sublist_of_leadsTo List.mem_cons_self (Branch.leadsTo_grow cs hb)
  have hiff := hshared.length_eq_one_iff ht hsub.subset
  rw [hits_file, toList_frontier_file, seen_file, hseen]
  by_cases hone : (b.grow r cs later).candidates.length = 1
  · rw [if_pos hone, if_pos hone]
    exact h.hit ht hb (hiff.1 hone)
  · rw [if_neg hone, if_neg hone]
    exact h.wait ht hb fun hi ↦ hone (hiff.2 hi)

/-- Filing adds no branch but the one filed. -/
theorem shared_file {w : Walk} (h : ∀ b ∈ w.frontier.toList, b.Shared) (hb : b.Shared) :
    ∀ b' ∈ (w.file b).frontier.toList, b'.Shared := by
  rw [toList_frontier_file]
  split
  · exact h
  · exact List.forall_mem_append.2 ⟨h, List.forall_mem_singleton.2 hb⟩

/-- **An extension that narrows nothing starts no minimal combination**: its last member could be
spared. -/
theorem not_starts_of_length_eq (ht : t.WellRanked) (hb : b.Shared) (hr : r ∈ t.ranked)
    (hlen : (b.extension r later).candidates.length = b.candidates.length)
    (hc : c.Sublist t.ranked) (hmin : t.IsMinimal c) : ¬(b.extension r later).members <+: c := by
  rintro ⟨rest, rfl⟩
  have hnarrow := (Slots.length_intersect_eq_iff hb.ascending (ht.ascending r hr)).1 hlen
  have hspare : b.members ++ rest ⊆ (b.extension r later).members ++ rest :=
    ((List.sublist_append_left _ _).append (List.Sublist.refl rest)).subset
  have hi : t.Isolates (b.members ++ rest) := by
    rw [ht.isolates_iff fun x hx ↦ hc.subset (hspare hx)]
    refine ⟨fun hnil ↦ hb.ne_nil (List.append_eq_nil_iff.1 hnil).1, fun s hs ↦ ?_⟩
    obtain ⟨hmembers, hrest⟩ := List.forall_mem_append.1 hs
    refine (hmin.1.2 s).1 ?_
    have hsr : s ∈ r.postings := hnarrow s ((hb.mem_candidates s).2 hmembers)
    simpa [Branch.grow, or_imp, forall_and] using ⟨hmembers, hsr, hrest⟩
  have hmem : r ∈ b.members ++ rest := hmin.2 _ hspare hi (by simp [Branch.grow])
  have hnodup : (b.members ++ r :: rest).Nodup := by
    simpa [Branch.grow] using ht.nodup.sublist hc
  exact (List.nodup_cons.1 (List.nodup_middle.1 hnodup)).1 hmem

namespace Invariant

variable {w w' : Walk}

/-- **Evaluating an extension keeps the invariant**, whether it is left out, a hit, or waits. -/
theorem extend (ht : t.WellRanked) (h : Invariant t w) (hcur : w.current = some b)
    (hb : b.later = r :: later) :
    Invariant t ({ w with current := some { b with later } }.extend t.slot b r later) := by
  have hprogress := h.toProgress
  have hshared := h.shared
  rw [pending_of_current hcur] at hprogress hshared
  obtain ⟨hbshared, hwaiting⟩ := List.forall_mem_cons.1 hshared
  set narrowed := Slots.intersect b.candidates r.postings
  have hsub := hprogress.sublist_of_leadsTo List.mem_cons_self (Branch.leadsTo_grow narrowed hb)
  have hr : r ∈ t.ranked := hsub.subset List.mem_concat_self
  have hext : (b.extension r later).Shared := hbshared.extension (ht.ascending r hr) later
  have hskip : Branch.Shared { b with later } :=
    ⟨hbshared.ne_nil, hbshared.ascending, hbshared.mem_candidates⟩
  rcases extend_cases t.slot { w with current := some { b with later } } b r later with
    ⟨heq, hout⟩ | ⟨heq, -⟩
  · rw [heq]
    refine ⟨hprogress.leave_out ht hb narrowed fun c hc hmin ↦ ?_,
      List.forall_mem_cons.2 ⟨hskip, hwaiting⟩⟩
    rcases hout with hslot | hlen | hseen
    · refine absurd ((hext.mem_candidates _).2 fun x hx ↦ ht.slot_mem x (hsub.subset hx)) hslot
    · exact not_starts_of_length_eq ht hbshared hr hlen hc hmin
    · exact absurd hseen (hprogress.not_mem_seen _ hb)
  · rw [heq]
    set w₁ : Walk := { w with
      current := some { b with later }
      branches := w.branches + 1
      seen := w.seen.insert ((b.extension r later).members.map Ranked.rank)
      depth := max w.depth (b.extension r later).members.length }
    show Invariant t (w₁.file (b.extension r later))
    have hpending₁ : (w₁.file (b.extension r later)).pending =
        { b with later } :: (w₁.file (b.extension r later)).frontier.toList :=
      pending_of_current (current_file _ _)
    have hseen : w₁.seen = w.seen.insert ((b.extension r later).members.map Ranked.rank) := rfl
    constructor
    · rw [hpending₁]
      exact Progress.file ht hprogress hb hseen hext
    · rw [hpending₁]
      exact List.forall_mem_cons.2 ⟨hskip, shared_file hwaiting hext⟩

/-- **Every step keeps the invariant.** -/
theorem step (ht : t.WellRanked) (h : Invariant t w) (hs : w.step t.slot = some w') :
    Invariant t w' := by
  rcases step_cases hs with ⟨b, rest, hcur, hpop, rfl⟩ | ⟨b, hcur, hb, rfl⟩ |
    ⟨b, r, later, hcur, hb, rfl⟩
  · -- the branch taken stays pending, in the same place
    have hpending : w.pending = b :: rest.toList := (pending_of_current_eq_none hcur).trans hpop
    obtain ⟨hprogress, hshared⟩ := h
    rw [hpending] at hprogress hshared
    exact ⟨hprogress, hshared⟩
  · obtain ⟨hprogress, hshared⟩ := h
    rw [pending_of_current hcur] at hprogress hshared
    exact ⟨hprogress.put_away hb, (List.forall_mem_cons.1 hshared).2⟩
  · exact h.extend ht hcur hb

end Invariant

/-! ### The start -/

/-- Before the seeding, all combinations lie ahead of a branch without members. -/
theorem progress_empty (t : Target) : Progress t [] ∅ [⟨[], [], t.ranked⟩] where
  sublist b hb := by
    rw [List.mem_singleton.1 hb]
    exact List.Sublist.refl _
  sizes := List.pairwise_singleton _ _
  disjoint := List.pairwise_singleton _ _
  fresh _ _ _ _ := Std.HashSet.not_mem_empty
  hits_isolate _ hc := absurd hc List.not_mem_nil
  hits_nodup := List.nodup_nil
  hits_seen _ hc := absurd hc List.not_mem_nil
  hits_length _ hc := absurd hc List.not_mem_nil
  covered c hc hmin := Or.inr ⟨_, List.mem_singleton_self _, c, hmin.1.1, hc, rfl⟩

/-- **Seeding is the growth of the branch without members**, feature by feature. -/
theorem progress_seed (ht : t.WellRanked) {features : List Ranked} {w : Walk}
    (hsub : features ⊆ t.ranked)
    (h : Progress t w.hits w.seen (⟨[], [], features⟩ :: w.frontier.toList))
    (hshared : ∀ b ∈ w.frontier.toList, b.Shared) :
    Progress t (w.seed t.slot features).hits (w.seed t.slot features).seen
        (⟨[], [], []⟩ :: (w.seed t.slot features).frontier.toList) ∧
      (∀ b ∈ (w.seed t.slot features).frontier.toList, b.Shared) ∧
      (w.seed t.slot features).current = w.current := by
  induction features generalizing w with
  | nil => exact ⟨h, hshared, rfl⟩
  | cons r later ih =>
    obtain ⟨hr, hlater⟩ := List.cons_subset.1 hsub
    have hslot : r.postings.contains t.slot = true :=
      List.contains_iff_mem.2 (ht.slot_mem r hr)
    have hsingle := Branch.shared_single (ht.ascending r hr) later
    rw [seed, if_pos hslot]
    set w₁ : Walk := { w with seen := w.seen.insert [r.rank] }
    have hseen : w₁.seen = w.seen.insert [r.rank] := rfl
    have hfile := Progress.file (w := w₁) ht h rfl hseen hsingle
    obtain ⟨hprogress, hall, hcur⟩ := ih hlater hfile (shared_file hshared hsingle)
    exact ⟨hprogress, hall, hcur.trans (current_file _ _)⟩

/-- **The invariant holds at the start.** -/
theorem invariant_start (ht : t.WellRanked) : Invariant t (start t) := by
  obtain ⟨hprogress, hshared, hcur⟩ :=
    progress_seed (w := empty) ht (List.Subset.refl _) (progress_empty t) (fun _ hb ↦ by cases hb)
  have hpending : (start t).pending = (empty.seed t.slot t.ranked).frontier.toList :=
    pending_of_current_eq_none (w := start t) hcur
  refine ⟨?_, ?_⟩
  · rw [hpending]
    exact hprogress.put_away rfl
  · rw [hpending]
    exact hshared

/-- **It holds wherever a run leads.** -/
theorem Invariant.of_reaches (ht : t.WellRanked) {w : Walk} (h : Reaches t.slot (start t) w) :
    Invariant t w :=
  h.preserves (fun _ _ hs hw ↦ hw.step ht hs) (invariant_start ht)

end Walk

end MethodFingerprint
