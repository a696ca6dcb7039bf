import MethodFingerprint.Index
import Mathlib.Data.List.Induction
import Mathlib.Data.List.Sort

/-!
# What an index says of its corpus

An index is built record by record, and a record whose id was given before overwrites an entry. What
comes out depends on less: the index knows, for every id, the **last record** of that id and nothing
else. `Settings.featuresOf` is that view of a corpus, and everything here ties the index to it.

The chain has four links, each resting on the one before only:

* `Roster.Describes` is the invariant of the numbering. It is stated by looking ids up, so that
  replacing an entry and appending one are the same kind of step (`Roster.describes_ofMethods`);
* `Postings.getD_ofEntries` says that the posting list of a feature is a selection from the numbered
  entries, so it is ascending because the numbers are;
* `Slots.mem_intersect` and `Slots.ascending_intersect` say that a merge of ascending lists is their
  intersection, and ascending again;
* `Index.mem_candidatesOf` puts them together: the candidates of a list of features are the slots
  whose features contain them all.

Two ascending lists with the same members are equal (`Slots.ext`), so membership is all that has to
be known of a list of slots.
-/

namespace MethodFingerprint

/-! ### The last record of an id -/

/-- The last record with an id. -/
def Method.last? (methods : List Method) (id : MethodId) : Option Method :=
  (methods.filter fun m ↦ m.id = id).getLast?

/-- What a search sees of a corpus: the features of every id that occurs in it. -/
abbrev FeatureView := MethodId → Option FeatureSet

/-- **The features of an id in a corpus**: those of its last record. -/
def Settings.featuresOf (settings : Settings) (methods : List Method) : FeatureView :=
  fun id ↦ (Method.last? methods id).map settings.features

namespace Method

@[simp] theorem last?_nil (id : MethodId) : last? [] id = none := rfl

/-- A further record is the last of its id and changes no other. -/
theorem last?_append_singleton (methods : List Method) (m : Method) (id : MethodId) :
    last? (methods ++ [m]) id = if m.id = id then some m else last? methods id := by
  unfold last?
  rw [List.filter_append]
  by_cases h : m.id = id
  · rw [if_pos h, List.filter_singleton, decide_eq_true h]
    exact List.getLast?_concat
  · rw [if_neg h, List.filter_singleton, decide_eq_false h]
    exact congrArg List.getLast? (List.append_nil _)

end Method

/-! ### Merging lists of slots -/

namespace Slots

/-- Two ascending lists with the same slots are the same list. -/
theorem ext {l l' : List Slot} (hl : l.Pairwise (· < ·)) (hl' : l'.Pairwise (· < ·))
    (h : ∀ s, s ∈ l ↔ s ∈ l') : l = l' :=
  List.Pairwise.eq_of_mem_iff hl hl' h

/-- An ascending list with one slot as its only member has no other. -/
theorem eq_singleton_iff {l : List Slot} {slot : Slot} (hl : l.Pairwise (· < ·)) :
    l = [slot] ↔ ∀ s, s ∈ l ↔ s = slot := by
  refine ⟨fun h s ↦ by rw [h, List.mem_singleton], fun h ↦ ?_⟩
  refine ext hl (List.pairwise_singleton _ _) fun s ↦ ?_
  rw [h, List.mem_singleton]

/-- **A merge keeps the common slots.** The smaller head is in one list only, as the other list goes
up from a larger one. -/
theorem mem_intersect {left right : List Slot} (hl : left.Pairwise (· < ·))
    (hr : right.Pairwise (· < ·)) {s : Slot} :
    s ∈ intersect left right ↔ s ∈ left ∧ s ∈ right := by
  fun_induction intersect left right with
  | case1 => simp
  | case2 => simp
  | case3 a left b right hab ih =>
    have ha : a ∉ b :: right := fun h ↦ by
      rcases List.mem_cons.1 h with rfl | h
      · exact Nat.lt_irrefl a hab
      · exact Nat.lt_asymm hab ((List.pairwise_cons.1 hr).1 a h)
    rw [ih hl.of_cons hr, List.mem_cons (a := s) (b := a)]
    refine ⟨fun h ↦ ⟨Or.inr h.1, h.2⟩, fun h ↦ ⟨h.1.resolve_left fun hs ↦ ha (hs ▸ h.2), h.2⟩⟩
  | case4 a left b right _ hba ih =>
    have hb : b ∉ a :: left := fun h ↦ by
      rcases List.mem_cons.1 h with rfl | h
      · exact Nat.lt_irrefl b hba
      · exact Nat.lt_asymm hba ((List.pairwise_cons.1 hl).1 b h)
    rw [ih hl hr.of_cons, List.mem_cons (a := s) (b := b)]
    refine ⟨fun h ↦ ⟨h.1, Or.inr h.2⟩, fun h ↦ ⟨h.1, h.2.resolve_left fun hs ↦ hb (hs ▸ h.1)⟩⟩
  | case5 a left b right hab hba ih =>
    obtain rfl : a = b := Nat.le_antisymm (Nat.not_lt.1 hba) (Nat.not_lt.1 hab)
    have hleft : a ∉ left := fun h ↦ Nat.lt_irrefl a ((List.pairwise_cons.1 hl).1 a h)
    have hright : a ∉ right := fun h ↦ Nat.lt_irrefl a ((List.pairwise_cons.1 hr).1 a h)
    rw [List.mem_cons, ih hl.of_cons hr.of_cons, List.mem_cons, List.mem_cons]
    exact or_and_left

/-- What a merge keeps comes from the left list, in its order. -/
theorem intersect_sublist_left (left right : List Slot) :
    (intersect left right).Sublist left := by
  fun_induction intersect left right with
  | case1 => exact .slnil
  | case2 => exact List.nil_sublist _
  | case3 a left b right _ ih => exact ih.cons a
  | case4 a left b right _ _ ih => exact ih
  | case5 a left b right _ _ ih => exact ih.cons_cons a

theorem ascending_intersect {left right : List Slot} (hl : left.Pairwise (· < ·)) :
    (intersect left right).Pairwise (· < ·) :=
  hl.sublist (intersect_sublist_left left right)

/-- **A merge of the same length narrows nothing.** -/
theorem length_intersect_eq_iff {left right : List Slot} (hl : left.Pairwise (· < ·))
    (hr : right.Pairwise (· < ·)) :
    (intersect left right).length = left.length ↔ ∀ s ∈ left, s ∈ right := by
  constructor
  · intro h s hs
    rw [← (intersect_sublist_left left right).eq_of_length h] at hs
    exact ((mem_intersect hl hr).1 hs).2
  · intro h
    refine congrArg List.length (ext (ascending_intersect hl) hl fun s ↦ ?_)
    rw [mem_intersect hl hr]
    exact and_iff_left_of_imp (h s)

end Slots

/-! ### Numbering the records -/

namespace Roster

/-- What a roster knows of the records that went into it: ids and entries are numbered alike, and
the entry of an id is that of its last record. -/
structure Describes (r : Roster) (settings : Settings) (methods : List Method) : Prop where
  slots_iff : ∀ id slot,
    r.slots[id]? = some slot ↔ ∃ e : Entry, r.entries[slot]? = some e ∧ e.id = id
  bind_slots : ∀ id, (r.slots[id]?.bind fun slot ↦ r.entries[slot]?) =
    (Method.last? methods id).map (Entry.ofMethod settings)

variable {r : Roster} {settings : Settings} {methods : List Method} {m : Method}

theorem describes_empty : empty.Describes settings [] where
  slots_iff id slot := by simp [empty]
  bind_slots id := by simp [empty]

/-- A record of a known id takes the place of the entry. -/
theorem Describes.replace (h : r.Describes settings methods) {slot : Slot}
    (hslot : r.slots[m.id]? = some slot) (repeated : Array MethodId) :
    Describes ⟨r.entries.setIfInBounds slot (.ofMethod settings m), r.slots, repeated⟩ settings
      (methods ++ [m]) := by
  obtain ⟨e, he, hid⟩ := (h.slots_iff m.id slot).1 hslot
  have hlt : slot < r.entries.size := (Array.getElem?_eq_some_iff.1 he).1
  constructor
  · intro id s
    show r.slots[id]? = some s ↔ _
    rw [h.slots_iff, Array.getElem?_setIfInBounds]
    by_cases hs : slot = s
    · subst hs
      rw [if_pos rfl, if_pos hlt, he]
      simp [hid, Entry.ofMethod]
    · rw [if_neg hs]
  · intro id
    show (r.slots[id]?.bind fun s ↦ (r.entries.setIfInBounds slot _)[s]?) = _
    rw [Method.last?_append_singleton]
    by_cases hm : m.id = id
    · subst hm
      rw [if_pos rfl, hslot, Option.bind_some, Array.getElem?_setIfInBounds_self_of_lt hlt,
        Option.map_some]
    · rw [if_neg hm, ← h.bind_slots id]
      refine Option.bind_congr fun s hs ↦ Array.getElem?_setIfInBounds_ne ?_
      -- the replaced entry belongs to another id
      rintro rfl
      obtain ⟨e', he', hid'⟩ := (h.slots_iff id slot).1 hs
      obtain rfl := Option.some.inj (he.symm.trans he')
      exact hm (hid.symm.trans hid')

/-- A record of a new id is numbered next. -/
theorem Describes.push (h : r.Describes settings methods) (hslot : r.slots[m.id]? = none) :
    Describes ⟨r.entries.push (.ofMethod settings m), r.slots.insert m.id r.entries.size,
      r.repeated⟩ settings (methods ++ [m]) := by
  constructor
  · intro id s
    show (r.slots.insert m.id r.entries.size)[id]? = some s ↔ _
    rw [Std.HashMap.getElem?_insert, Array.getElem?_push]
    by_cases hm : m.id = id
    · subst hm
      rw [if_pos (by simp), Option.some.injEq]
      refine ⟨fun hs ↦ ⟨_, if_pos hs.symm, rfl⟩, fun ⟨e, he, hid⟩ ↦ ?_⟩
      by_contra hs
      rw [if_neg fun h' ↦ hs h'.symm] at he
      rw [(h.slots_iff m.id s).2 ⟨e, he, hid⟩] at hslot
      cases hslot
    · rw [if_neg (by simpa using hm), h.slots_iff]
      by_cases hs : s = r.entries.size
      · subst hs
        simp [hm, Entry.ofMethod]
      · rw [if_neg hs]
  · intro id
    show ((r.slots.insert m.id r.entries.size)[id]?.bind fun s ↦ (r.entries.push _)[s]?) = _
    rw [Std.HashMap.getElem?_insert, Method.last?_append_singleton]
    by_cases hm : m.id = id
    · subst hm
      simp
    · rw [if_neg (by simpa using hm), if_neg hm, ← h.bind_slots id]
      refine Option.bind_congr fun s hs ↦ ?_
      obtain ⟨e, he, -⟩ := (h.slots_iff id s).1 hs
      have hlt : s < r.entries.size := (Array.getElem?_eq_some_iff.1 he).1
      rw [Array.getElem?_push, if_neg (Nat.ne_of_lt hlt)]

/-- **One record is taken up.** -/
theorem Describes.record (h : r.Describes settings methods) (m : Method) :
    (r.record (.ofMethod settings m)).Describes settings (methods ++ [m]) := by
  unfold Roster.record
  split
  · rename_i slot hslot
    exact h.replace hslot _
  · rename_i hslot
    exact h.push hslot

/-- **A roster describes the records it was made of**, by induction on the last of them. -/
theorem describes_ofMethods (settings : Settings) (methods : List Method) :
    (ofMethods settings methods).Describes settings methods := by
  induction methods using List.reverseRecOn with
  | nil => exact describes_empty
  | append_singleton methods m ih =>
    have h := ih.record m
    rwa [ofMethods, List.foldl_append]

end Roster

/-! ### Posting lists -/

/-- A set lists no feature twice. -/
theorem FeatureSet.nodup (s : FeatureSet) : s.toList.Nodup := by
  refine s.ascending.imp ?_
  rintro f _ h rfl
  exact Feature.lt_irrefl f h

namespace Postings

/-- Adding a slot puts it in front of the lists of the given features and of no other. -/
theorem getD_add (slot : Slot) {features : List Feature} (hf : features.Nodup) (p : Postings)
    (f : Feature) :
    (add slot features p).getD f [] =
      if f ∈ features then slot :: p.getD f [] else p.getD f [] := by
  induction features generalizing p with
  | nil => rfl
  | cons g features ih =>
    obtain ⟨hg, hf⟩ := List.nodup_cons.1 hf
    have hadd : add slot (g :: features) p =
        add slot features (p.insert g (slot :: p.getD g [])) := rfl
    rw [hadd, ih hf, Std.HashMap.getD_insert]
    by_cases hgf : g = f
    · subst hgf
      simp [hg]
    · have hfg : f ≠ g := fun h ↦ hgf h.symm
      simp [hgf, hfg]

/-- **The posting list of a feature** selects the slots of the entries that have it, in order. -/
theorem getD_ofEntries (entries : List (Entry × Slot)) (f : Feature) :
    (ofEntries entries).getD f [] =
      (entries.filter fun e ↦ e.1.features.contains f).map Prod.snd := by
  induction entries with
  | nil => simp [ofEntries]
  | cons e entries ih =>
    have hcons : ofEntries (e :: entries) = add e.2 e.1.features.toList (ofEntries entries) := rfl
    rw [hcons, getD_add e.2 e.1.features.nodup, ih, List.filter_cons]
    by_cases hf : f ∈ e.1.features.toList
    · rw [if_pos hf, if_pos (FeatureSet.contains_iff.2 hf), List.map_cons]
    · rw [if_neg hf, if_neg fun h ↦ hf (FeatureSet.contains_iff.1 h)]

end Postings

/-! ### What the index answers -/

namespace Index

/-- An index whose slots and entries are numbered alike and whose posting lists are those of its
entries. -/
structure Coherent (x : Index) : Prop where
  slots_iff : ∀ id slot, x.slots[id]? = some slot ↔
    ∃ e : Entry, x.entryAt? slot = some e ∧ e.id = id
  postings_eq : x.postings = .ofEntries x.entries.toList.zipIdx

/-- A coherent index **presents** a view if it keeps, for every id, the features in the view. This
is all that the searches rest on: records and settings are behind it. -/
structure Presents (x : Index) (v : FeatureView) : Prop extends x.Coherent where
  features_eq : ∀ id, (x.slots[id]?.bind x.entryAt?).map Entry.features = v id

variable {x : Index} {v : FeatureView} {id : MethodId} {slot : Slot} {f : Feature}
  {fs : List Feature}

/-- **The entry of an id is that of its last record.** -/
theorem bind_slots_build (methods : List Method) (settings : Settings) (id : MethodId) :
    (build methods settings).slots[id]?.bind (build methods settings).entryAt? =
      (Method.last? methods id).map (Entry.ofMethod settings) :=
  (Roster.describes_ofMethods settings methods).bind_slots id

/-- The number of parameters of an id is that of its last record. -/
theorem parameterCount_build {methods : List Method} {m : Method} {id : MethodId}
    (hm : Method.last? methods id = some m) (settings : Settings) :
    (build methods settings).parameterCount id = .ok m.parameters.length := by
  rw [parameterCount, entry, bind_slots_build, hm]
  rfl

/-- **The index of a corpus presents the features of the last records.** -/
theorem presents_build (methods : List Method) (settings : Settings) :
    (build methods settings).Presents (settings.featuresOf methods) where
  slots_iff := (Roster.describes_ofMethods settings methods).slots_iff
  postings_eq := rfl
  features_eq id := by
    rw [bind_slots_build, Option.map_map]
    rfl

/-- The features at a slot are those of the entry there. -/
theorem mem_featuresAt :
    f ∈ x.featuresAt slot ↔ ∃ e, x.entryAt? slot = some e ∧ f ∈ e.features := by
  unfold featuresAt
  cases x.entryAt? slot with
  | none => simp [FeatureSet.mem_def]
  | some e => simp

theorem lt_size_of_mem_featuresAt (h : f ∈ x.featuresAt slot) : slot < x.size := by
  obtain ⟨e, he, -⟩ := mem_featuresAt.1 h
  exact (Array.getElem?_eq_some_iff.1 he).1

namespace Coherent

/-- The candidates of a feature are selected from the numbered entries. -/
theorem candidates_eq (h : x.Coherent) (f : Feature) :
    x.candidates f =
      (x.entries.toList.zipIdx.filter fun e ↦ e.1.features.contains f).map Prod.snd := by
  rw [candidates, h.postings_eq, Postings.getD_ofEntries]

/-- **The candidates of a feature are the slots that have it.** -/
theorem mem_candidates (h : x.Coherent) : slot ∈ x.candidates f ↔ f ∈ x.featuresAt slot := by
  rw [h.candidates_eq, mem_featuresAt, List.mem_map]
  constructor
  · rintro ⟨⟨e, s⟩, hmem, rfl⟩
    obtain ⟨he, hf⟩ := List.mem_filter.1 hmem
    rw [List.mem_zipIdx_iff_getElem?] at he
    exact ⟨e, by simpa [entryAt?] using he, FeatureSet.contains_iff.1 hf⟩
  · rintro ⟨e, he, hf⟩
    refine ⟨(e, slot), List.mem_filter.2 ⟨?_, FeatureSet.contains_iff.2 hf⟩, rfl⟩
    rw [List.mem_zipIdx_iff_getElem?]
    simpa [entryAt?] using he

/-- **They come in ascending order**, as the entries were numbered in it. -/
theorem ascending_candidates (h : x.Coherent) (f : Feature) :
    (x.candidates f).Pairwise (· < ·) := by
  rw [h.candidates_eq]
  refine List.Pairwise.sublist (List.filter_sublist.map Prod.snd) ?_
  rw [List.zipIdx_map_snd]
  exact List.pairwise_lt_range'

/-- Narrowing down keeps the slots that have the further features too. -/
theorem mem_narrow (h : x.Coherent) {current : List Slot} (hc : current.Pairwise (· < ·)) :
    slot ∈ x.narrow current fs ↔ slot ∈ current ∧ ∀ f ∈ fs, f ∈ x.featuresAt slot := by
  induction fs generalizing current with
  | nil => simp [narrow]
  | cons f fs ih =>
    rw [narrow]
    split
    · rename_i hempty
      rw [List.isEmpty_iff.1 hempty]
      simp
    · rw [ih (Slots.ascending_intersect hc), Slots.mem_intersect hc (h.ascending_candidates f),
        h.mem_candidates, List.forall_mem_cons, and_assoc]

theorem ascending_narrow (fs : List Feature) {current : List Slot}
    (hc : current.Pairwise (· < ·)) : (x.narrow current fs).Pairwise (· < ·) := by
  induction fs generalizing current with
  | nil => exact hc
  | cons f fs ih =>
    rw [narrow]
    split
    · exact hc
    · exact ih (Slots.ascending_intersect hc)

/-- **The candidates of a list of features are the slots that have them all.** -/
theorem mem_candidatesOf (h : x.Coherent) :
    slot ∈ x.candidatesOf fs ↔ slot < x.size ∧ ∀ f ∈ fs, f ∈ x.featuresAt slot := by
  cases fs with
  | nil => simp [candidatesOf]
  | cons f fs =>
    rw [candidatesOf, h.mem_narrow (h.ascending_candidates f), h.mem_candidates,
      List.forall_mem_cons]
    exact (and_iff_right_of_imp fun hf ↦ lt_size_of_mem_featuresAt hf.1).symm

theorem ascending_candidatesOf (h : x.Coherent) (fs : List Feature) :
    (x.candidatesOf fs).Pairwise (· < ·) := by
  cases fs with
  | nil => exact List.pairwise_lt_range
  | cons f fs => exact ascending_narrow fs (h.ascending_candidates f)

end Coherent

namespace Presents

/-- The features at the slot of an id are those in the view. -/
theorem eq_some_iff (h : x.Presents v) {s : FeatureSet} :
    v id = some s ↔ ∃ slot, x.slots[id]? = some slot ∧ x.featuresAt slot = s := by
  rw [← h.features_eq id]
  cases hslot : x.slots[id]? with
  | none => simp
  | some slot =>
    obtain ⟨e, he, -⟩ := (h.slots_iff id slot).1 hslot
    simp [featuresAt, he]

/-- An id has every feature of a list exactly if its slot is a candidate of the list. -/
theorem forall_mem_iff (h : x.Presents v) :
    (∃ s, v id = some s ∧ ∀ f ∈ fs, f ∈ s) ↔
      ∃ slot, x.slots[id]? = some slot ∧ slot ∈ x.candidatesOf fs := by
  constructor
  · rintro ⟨s, hs, hf⟩
    obtain ⟨slot, hslot, rfl⟩ := h.eq_some_iff.1 hs
    obtain ⟨e, he, -⟩ := (h.slots_iff id slot).1 hslot
    exact ⟨slot, hslot, h.mem_candidatesOf.2 ⟨(Array.getElem?_eq_some_iff.1 he).1, hf⟩⟩
  · rintro ⟨slot, hslot, hmem⟩
    exact ⟨_, h.eq_some_iff.2 ⟨slot, hslot, rfl⟩, (h.mem_candidatesOf.1 hmem).2⟩

/-- Every slot below the size is the slot of an id. -/
theorem exists_id (h : x.Presents v) (hlt : slot < x.size) :
    ∃ id : MethodId, x.slots[id]? = some slot :=
  ⟨x.entries[slot].id, (h.slots_iff _ _).2 ⟨_, Array.getElem?_eq_getElem hlt, rfl⟩⟩

/-- Different ids have different slots. -/
theorem slots_inj (h : x.Presents v) {id' : MethodId} (hid : x.slots[id]? = some slot)
    (hid' : x.slots[id']? = some slot) : id = id' := by
  obtain ⟨e, he, rfl⟩ := (h.slots_iff id slot).1 hid
  obtain ⟨e', he', rfl⟩ := (h.slots_iff id' slot).1 hid'
  rw [Option.some.inj (he.symm.trans he')]

end Presents

end Index

end MethodFingerprint
