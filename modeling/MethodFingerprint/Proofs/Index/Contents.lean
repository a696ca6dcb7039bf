import MethodFingerprint.Proofs.Distinct
import MethodFingerprint.Proofs.Index

/-!
# What an index answers

An index keeps ids, slots, entries and posting lists side by side. `Index.Reflects` says, for every
question that can be put to an index, what the answer is in terms of the records alone, and
`Index.reflects_build` that the index of a corpus answers so, however often ids are repeated in it.

The two facts that looking ids up does not give are proved first. The ids stand in the order in
which they first occur, since replacing a record leaves the entry in its place
(`Roster.map_id_ofMethods`). A feature has a posting list exactly if some entry has it
(`Postings.mem_ofEntries`), so counting posting lists is counting features.
-/

namespace MethodFingerprint

/-! ### The order of the ids -/

namespace Roster

variable {r : Roster} {settings : Settings} {methods : List Method}

/-- An id has an entry exactly if it has a slot. -/
theorem Describes.mem_map_id_iff (h : r.Describes settings methods) {id : MethodId} :
    id ∈ r.entries.toList.map Entry.id ↔ ∃ slot, r.slots[id]? = some slot := by
  simp only [h.slots_iff, List.mem_map, Array.mem_toList_iff, Array.mem_iff_getElem?]
  constructor
  · rintro ⟨e, ⟨slot, he⟩, hid⟩
    exact ⟨slot, e, he, hid⟩
  · rintro ⟨slot, e, he, hid⟩
    exact ⟨e, ⟨slot, he⟩, hid⟩

/-- **A record of a known id changes no id, and one of a new id adds it at the end.** -/
theorem Describes.map_id_record (h : r.Describes settings methods) (m : Method) :
    (r.record (.ofMethod settings m)).entries.toList.map Entry.id =
      if m.id ∈ r.entries.toList.map Entry.id then r.entries.toList.map Entry.id
      else r.entries.toList.map Entry.id ++ [m.id] := by
  unfold Roster.record
  split
  · rename_i slot hslot
    have hknown : r.slots[m.id]? = some slot := hslot
    rw [if_pos (h.mem_map_id_iff.2 ⟨slot, hknown⟩)]
    obtain ⟨e, he, hid⟩ := (h.slots_iff m.id slot).1 hknown
    obtain ⟨hlt, rfl⟩ := Array.getElem?_eq_some_iff.1 he
    have hlen : slot < (r.entries.toList.map Entry.id).length := by simpa using hlt
    -- the entry that is replaced has the same id
    have hself : (r.entries.toList.map Entry.id)[slot] = m.id := by simpa using hid
    show (r.entries.setIfInBounds slot (.ofMethod settings m)).toList.map Entry.id = _
    rw [Array.toList_setIfInBounds, List.map_set]
    show (r.entries.toList.map Entry.id).set slot m.id = _
    rw [← hself, List.set_getElem_self]
  · rename_i hslot
    have hnew : m.id ∉ r.entries.toList.map Entry.id := fun hmem ↦ by
      obtain ⟨slot, hsome⟩ := h.mem_map_id_iff.1 hmem
      have hnone : r.slots[m.id]? = none := hslot
      rw [hnone] at hsome
      cases hsome
    rw [if_neg hnew]
    show (r.entries.push (.ofMethod settings m)).toList.map Entry.id = _
    rw [Array.toList_push, List.map_append]
    rfl

/-- **The entries stand in the order in which their ids first occur**, by induction on the last
record. -/
theorem map_id_ofMethods (settings : Settings) (methods : List Method) :
    (ofMethods settings methods).entries.toList.map Entry.id =
      (methods.map Method.id).eraseDups := by
  induction methods using List.reverseRecOn with
  | nil => rfl
  | append_singleton methods m ih =>
    have hdescribes := describes_ofMethods settings methods
    have hlast : ofMethods settings (methods ++ [m]) =
        (ofMethods settings methods).record (.ofMethod settings m) := by
      rw [ofMethods, List.foldl_append]
      rfl
    rw [hlast, hdescribes.map_id_record, ih, List.map_append, List.map_singleton,
      eraseDups_concat]

end Roster

/-! ### The features that have posting lists -/

namespace Postings

theorem mem_add (slot : Slot) (features : List Feature) (p : Postings) (f : Feature) :
    f ∈ add slot features p ↔ f ∈ features ∨ f ∈ p := by
  induction features generalizing p with
  | nil => simp [add]
  | cons g features ih =>
    have hadd : add slot (g :: features) p =
        add slot features (p.insert g (slot :: p.getD g [])) := rfl
    rw [hadd, ih, Std.HashMap.mem_insert, beq_iff_eq, List.mem_cons, eq_comm, or_left_comm,
      or_assoc]

/-- **A feature has a posting list exactly if an entry has the feature.** -/
theorem mem_ofEntries (entries : List (Entry × Slot)) (f : Feature) :
    f ∈ ofEntries entries ↔ ∃ e ∈ entries, f ∈ e.1.features := by
  induction entries with
  | nil => simp [ofEntries]
  | cons e entries ih =>
    have hcons : ofEntries (e :: entries) = add e.2 e.1.features.toList (ofEntries entries) := rfl
    rw [hcons, mem_add, ih, List.exists_mem_cons_iff]
    rfl

end Postings

/-! ### The answers -/

namespace Index

/-- **What an index answers about the records it was built from.** Only the last record of an id
counts. -/
structure Reflects (x : Index) (settings : Settings) (methods : List Method) : Prop where
  /-- The ids are listed once each, in order of first occurrence. -/
  ids_eq : x.ids = (methods.map Method.id).eraseDups
  /-- Looking up a slot and looking up the id there undo each other. -/
  slot_eq_ok_iff : ∀ id slot, x.slot id = .ok slot ↔ x.ids[slot]? = some id
  idsOf_eq : ∀ slots, x.idsOf slots = slots.filterMap fun slot ↦ x.ids[slot]?
  /-- An id that occurs is answered by its last record. -/
  of_last : ∀ id m, Method.last? methods id = some m →
    x.lookup id = .ok (settings.features m) ∧ x.parameterCount id = .ok m.parameters.length ∧
      ∃ slot, x.slot id = .ok slot ∧ x.featuresAt slot = settings.features m
  /-- An id that does not occur is unknown. -/
  of_unknown : ∀ id, Method.last? methods id = none →
    x.slot id = .error ⟨id⟩ ∧ x.lookup id = .error ⟨id⟩ ∧ x.parameterCount id = .error ⟨id⟩
  /-- The candidates of a feature are in strictly ascending order … -/
  ascending_candidates : ∀ f, (x.candidates f).Pairwise (· < ·)
  /-- … and are the slots of the ids that have it, so nothing of a replaced record is left. -/
  mem_candidates : ∀ f slot, slot ∈ x.candidates f ↔
    ∃ id m, x.slot id = .ok slot ∧ Method.last? methods id = some m ∧ f ∈ settings.features m
  /-- The features counted are those that some id has, each of them once. -/
  featureCount_eq : ∃ l : List Feature, l.Nodup ∧ l.length = x.featureCount ∧
    ∀ f, f ∈ l ↔ ∃ id m, Method.last? methods id = some m ∧ f ∈ settings.features m
  ascending_candidatesOf : ∀ fs, (x.candidatesOf fs).Pairwise (· < ·)
  /-- The candidates of a list are the slots of the ids that have all its features, whatever their
  order and however often they are repeated. -/
  mem_candidatesOf : ∀ fs slot, slot ∈ x.candidatesOf fs ↔
    ∃ id m, x.slot id = .ok slot ∧ Method.last? methods id = some m ∧
      ∀ f ∈ fs, f ∈ settings.features m
  candidatesOf_nil : x.candidatesOf [] = List.range x.ids.length

variable {x : Index} {v : FeatureView} {id : MethodId} {slot : Slot}

theorem slot_eq_ok_iff : x.slot id = .ok slot ↔ x.slots[id]? = some slot := by
  unfold Index.slot
  cases x.slots[id]? <;> simp

theorem getElem?_ids (x : Index) (slot : Slot) :
    x.ids[slot]? = (x.entryAt? slot).map Entry.id := by
  rw [ids, List.getElem?_map, Array.getElem?_toList]
  rfl

/-- An index has as many methods as the corpus has ids. -/
theorem size_build (methods : List Method) (settings : Settings) :
    (build methods settings).size = (methods.map Method.id).eraseDups.length := by
  rw [← Roster.map_id_ofMethods settings, List.length_map, Array.length_toList]
  rfl

/-- The features at a slot are those of the id there. -/
theorem Presents.featuresAt_eq_iff (h : x.Presents v) (hslot : x.slots[id]? = some slot)
    {s : FeatureSet} : x.featuresAt slot = s ↔ v id = some s := by
  rw [h.eq_some_iff]
  refine ⟨fun heq ↦ ⟨slot, hslot, heq⟩, ?_⟩
  rintro ⟨slot', hslot', heq⟩
  rwa [Option.some.inj (hslot.symm.trans hslot')]

/-- An id has a slot exactly if it is in the view. -/
theorem Presents.getElem?_slots_eq_none_iff (h : x.Presents v) :
    x.slots[id]? = none ↔ v id = none := by
  rw [Option.eq_none_iff_forall_ne_some, Option.eq_none_iff_forall_ne_some]
  constructor
  · intro hnone s hs
    obtain ⟨slot, hslot, -⟩ := h.eq_some_iff.1 hs
    exact hnone slot hslot
  · intro hnone slot hslot
    exact hnone _ ((h.featuresAt_eq_iff hslot).1 rfl)

/-- **The candidates of a list of features are the slots of the ids that have them all in the
view.** -/
theorem Presents.mem_candidatesOf_iff (h : x.Presents v) {fs : List Feature} :
    slot ∈ x.candidatesOf fs ↔
      ∃ id s, x.slots[id]? = some slot ∧ v id = some s ∧ ∀ f ∈ fs, f ∈ s := by
  rw [h.mem_candidatesOf]
  constructor
  · rintro ⟨hlt, hall⟩
    obtain ⟨id, hid⟩ := h.exists_id hlt
    exact ⟨id, x.featuresAt slot, hid, (h.featuresAt_eq_iff hid).1 rfl, hall⟩
  · rintro ⟨id, s, hid, hs, hall⟩
    obtain ⟨e, he, -⟩ := (h.slots_iff id slot).1 hid
    obtain rfl := (h.featuresAt_eq_iff hid).2 hs
    exact ⟨(Array.getElem?_eq_some_iff.1 he).1, hall⟩

/-- The candidates of a feature are those of the list of it alone. -/
theorem candidatesOf_singleton (x : Index) (f : Feature) : x.candidatesOf [f] = x.candidates f :=
  rfl

/-- **As many features are counted as some id has.** -/
theorem Presents.exists_nodup_length_eq_featureCount (h : x.Presents v) :
    ∃ l : List Feature, l.Nodup ∧ l.length = x.featureCount ∧
      ∀ f, f ∈ l ↔ ∃ id s, v id = some s ∧ f ∈ s := by
  refine ⟨x.postings.keys, Std.HashMap.nodup_keys, Std.HashMap.length_keys, fun f ↦ ?_⟩
  rw [Std.HashMap.mem_keys, h.postings_eq, Postings.mem_ofEntries]
  constructor
  · rintro ⟨⟨e, slot⟩, hmem, hf⟩
    rw [List.mem_zipIdx_iff_getElem?, Array.getElem?_toList] at hmem
    have hslot := (h.slots_iff e.id slot).2 ⟨e, hmem, rfl⟩
    refine ⟨e.id, e.features, (h.featuresAt_eq_iff hslot).1 ?_, hf⟩
    rw [featuresAt, entryAt?, hmem]
    rfl
  · rintro ⟨id, s, hs, hf⟩
    obtain ⟨slot, -, rfl⟩ := h.eq_some_iff.1 hs
    obtain ⟨e, he, hf⟩ := mem_featuresAt.1 hf
    refine ⟨(e, slot), ?_, hf⟩
    rwa [List.mem_zipIdx_iff_getElem?, Array.getElem?_toList]

/-- Having features in the view of a corpus is having a last record with them. -/
theorem exists_featuresOf_iff {settings : Settings} {methods : List Method}
    {p : FeatureSet → Prop} :
    (∃ s, settings.featuresOf methods id = some s ∧ p s) ↔
      ∃ m, Method.last? methods id = some m ∧ p (settings.features m) := by
  rw [Settings.featuresOf]
  cases Method.last? methods id <;> simp

/-- **Correctness of the index.** The index of a corpus answers every question as the last records
say. -/
theorem reflects_build (methods : List Method) (settings : Settings) :
    (build methods settings).Reflects settings methods := by
  have h := presents_build methods settings
  have hentry (id : MethodId) := bind_slots_build methods settings id
  have hmem (fs : List Feature) (slot : Slot) : slot ∈ (build methods settings).candidatesOf fs ↔
      ∃ id m, (build methods settings).slot id = .ok slot ∧ Method.last? methods id = some m ∧
        ∀ f ∈ fs, f ∈ settings.features m := by
    rw [h.mem_candidatesOf_iff]
    refine exists_congr fun id ↦ ?_
    rw [exists_and_left, exists_and_left, slot_eq_ok_iff]
    exact and_congr_right fun _ ↦ exists_featuresOf_iff
  constructor
  · exact Roster.map_id_ofMethods settings methods
  · intro id slot
    rw [slot_eq_ok_iff, h.slots_iff, getElem?_ids, Option.map_eq_some_iff]
  · intro slots
    simp only [getElem?_ids]
    rfl
  · intro id m hm
    have he := hentry id
    rw [hm] at he
    have hv : settings.featuresOf methods id = some (settings.features m) := by
      rw [Settings.featuresOf, hm]
      rfl
    obtain ⟨slot, hslot, hfeatures⟩ := h.eq_some_iff.1 hv
    refine ⟨?_, ?_, slot, slot_eq_ok_iff.2 hslot, hfeatures⟩
    · rw [lookup, entry, he]
      rfl
    · rw [parameterCount, entry, he]
      rfl
  · intro id hm
    have he := hentry id
    rw [hm] at he
    have hv : settings.featuresOf methods id = none := by
      rw [Settings.featuresOf, hm]
      rfl
    refine ⟨?_, ?_, ?_⟩
    · rw [Index.slot, h.getElem?_slots_eq_none_iff.2 hv]
    · rw [lookup, entry, he]
      rfl
    · rw [parameterCount, entry, he]
      rfl
  · exact h.ascending_candidates
  · intro f slot
    rw [← candidatesOf_singleton, hmem]
    simp only [List.forall_mem_singleton]
  · obtain ⟨l, hnodup, hlen, hl⟩ := h.exists_nodup_length_eq_featureCount
    refine ⟨l, hnodup, hlen, fun f ↦ ?_⟩
    rw [hl]
    exact exists_congr fun id ↦ exists_featuresOf_iff
  · exact h.ascending_candidatesOf
  · exact hmem
  · rw [candidatesOf, ids, List.length_map, Array.length_toList]
    rfl

end Index

end MethodFingerprint
