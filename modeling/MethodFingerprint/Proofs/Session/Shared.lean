import MethodFingerprint.Session.Shared
import MethodFingerprint.Proofs.Session
import Mathlib.Data.List.Nodup

/-!
# Calls at the same time act one after the other

A call reads one half of the session, takes its time, and then replaces both halves. That nothing is
lost on the way rests on one thing: the call has had the lock since before it read. So what it has
read is still current when it swaps, and the swap is the change made to the session as it is then.

`SharedSession.Fits` says this of a single call, stage by stage: whoever has the lock is the holder,
what was read is the current snapshot, and what was built is built from it. Who does not have the
lock is outside, and stays so whatever the holder does (`Fits.of_outside`); this is all that a move
of one call needs to know of the others.

`SharedSession.Serial` adds the order of the calls. The call that has the lock was the last to take
it, so its change comes behind those of all calls that have taken effect before. The invariant is
kept by every move (`Serial.next`) and therefore by every interleaving (`Serial.run`).
-/

namespace MethodFingerprint

/-! ### What is built -/

namespace Session

/-- **A change is what is built from the current snapshot**, and nothing if nothing is built. -/
theorem change_of_build?_eq_some {s : Session} {c : Change} {next : Snapshot}
    (h : c.build? s.current = some next) : s.change c = ⟨next⟩ := by
  cases c with
  | corpus new => exact congrArg Session.mk (Option.some.inj h)
  | settings new =>
    rw [Change.build?] at h
    split at h
    · cases h
    · rename_i hne
      exact (setSettings_of_ne hne).trans (congrArg Session.mk (Option.some.inj h))

theorem change_of_build?_eq_none {s : Session} {c : Change} (h : c.build? s.current = none) :
    s.change c = s := by
  cases c with
  | corpus new => cases h
  | settings new =>
    rw [Change.build?] at h
    split at h
    · rename_i heq
      exact setSettings_of_eq heq
    · cases h

end Session

namespace SharedSession

variable {first : Session} {s s' : SharedSession} {i j : Nat} {call call' : Call} {stage : Stage}

/-! ### Moves -/

/-- **Everything a step of a call can do.** -/
theorem advance?_cases (h : s.advance? i call = some s') :
    (call.stage = .made ∧ s.holder = none ∧
      s' = { s.setStage i call .locked with holder := some i, order := s.order ++ [i] }) ∨
    (call.stage = .locked ∧ s' = s.setStage i call (.reading s.session.current)) ∨
    (∃ read next, call.stage = .reading read ∧ call.change.build? read = some next ∧
      s' = s.setStage i call (.built next)) ∨
    (∃ read, call.stage = .reading read ∧ call.change.build? read = none ∧
      s' = { s.setStage i call .returned with holder := none }) ∨
    (∃ next, call.stage = .built next ∧
      s' = { s.setStage i call .swapped with session := ⟨next⟩ }) ∨
    (call.stage = .swapped ∧ s' = { s.setStage i call .returned with holder := none }) := by
  unfold advance? at h
  split at h
  · rename_i hmade
    split at h
    · cases h
    · rename_i hfree
      exact Or.inl ⟨hmade, hfree, (Option.some.inj h).symm⟩
  · rename_i hlocked
    exact Or.inr (Or.inl ⟨hlocked, (Option.some.inj h).symm⟩)
  · rename_i read hreading
    split at h
    · rename_i hnone
      exact Or.inr (Or.inr (Or.inr (Or.inl ⟨read, hreading, hnone, (Option.some.inj h).symm⟩)))
    · rename_i next hnext
      exact Or.inr (Or.inr (Or.inl ⟨read, next, hreading, hnext, (Option.some.inj h).symm⟩))
  · rename_i next hbuilt
    exact Or.inr (Or.inr (Or.inr (Or.inr (Or.inl ⟨next, hbuilt, (Option.some.inj h).symm⟩))))
  · rename_i hswapped
    exact Or.inr (Or.inr (Or.inr (Or.inr (Or.inr ⟨hswapped, (Option.some.inj h).symm⟩))))
  · cases h

theorem getElem?_set_of_eq_some {calls : List Call} (hi : calls[i]? = some call) (call' : Call)
    (j : Nat) : (calls.set i call')[j]? = if i = j then some call' else calls[j]? := by
  rw [List.getElem?_set]
  obtain ⟨hlt, -⟩ := List.getElem?_eq_some_iff.1 hi
  simp [hlt]

/-! ### Where a call stands -/

/-- **What a stage says of a call**: whether it has the lock, and what it has in hands. -/
def Fits (s : SharedSession) (i : Nat) (call : Call) : Prop :=
  match call.stage with
  | .made => s.holder ≠ some i ∧ i ∉ s.order
  | .locked => s.holder = some i
  | .reading read => s.holder = some i ∧ read = s.session.current
  | .built next => s.holder = some i ∧ call.change.build? s.session.current = some next
  | .swapped => s.holder = some i
  | .returned => s.holder ≠ some i ∧ i ∈ s.order

/-- **Nobody but the holder is inside.** What others do does not concern a call outside. -/
theorem Fits.of_outside (h : s.Fits i call) (hi : s.holder ≠ some i) (hi' : s'.holder ≠ some i)
    (horder : i ∈ s'.order ↔ i ∈ s.order) : s'.Fits i call := by
  unfold Fits at h ⊢
  cases hstage : call.stage with
  | made =>
    rw [hstage] at h
    exact ⟨hi', fun hmem ↦ h.2 (horder.1 hmem)⟩
  | locked =>
    rw [hstage] at h
    exact absurd h hi
  | reading read =>
    rw [hstage] at h
    exact absurd h.1 hi
  | built next =>
    rw [hstage] at h
    exact absurd h.1 hi
  | swapped =>
    rw [hstage] at h
    exact absurd h hi
  | returned =>
    rw [hstage] at h
    exact ⟨hi', horder.2 h.2⟩

/-- A call inside has the lock. -/
theorem Fits.holder_eq (h : s.Fits i call) (hlock : call.stage.holdsLock = true) :
    s.holder = some i := by
  unfold Fits at h
  cases hstage : call.stage with
  | made => rw [hstage] at hlock; cases hlock
  | locked => rw [hstage] at h; exact h
  | reading read => rw [hstage] at h; exact h.1
  | built next => rw [hstage] at h; exact h.1
  | swapped => rw [hstage] at h; exact h
  | returned => rw [hstage] at hlock; cases hlock

theorem holder_ne (h : s.holder = some i) (hij : i ≠ j) : s.holder ≠ some j := by
  rw [h]
  exact fun heq ↦ hij (Option.some.inj heq)

/-! ### One order for all calls -/

/-- **The invariant of an interleaving.** Every call stands where its stage says; the calls that
have taken the lock are listed once each, the holder last; and the session is what their changes
make of it in this order, as far as they have taken effect. Whoever has read it has read what a part
of them makes of it. -/
structure Serial (first : Session) (s : SharedSession) : Prop where
  fits : ∀ i call, s.calls[i]? = some call → s.Fits i call
  lt_length : ∀ i ∈ s.order, i < s.calls.length
  nodup : s.order.Nodup
  last : ∀ i, s.holder = some i → ∃ before, s.order = before ++ [i]
  session_eq : s.session = s.applied.foldl Session.change first
  reads_eq : ∀ read ∈ s.reads, ∃ past, past <+: s.applied ∧
    read = (past.foldl Session.change first).current

/-- The effect of a call that is set, and the effects of the others. -/
theorem effect?_set (hi : s.calls[i]? = some call) (hcalls : s'.calls = s.calls.set i call')
    (j : Nat) : s'.effect? j = if i = j then call'.applied? else s.effect? j := by
  rw [effect?, hcalls, getElem?_set_of_eq_some hi]
  split
  · rfl
  · rfl

/-- **What has taken effect stays as it is** while a call moves that comes to no effect. -/
theorem applied_set (hi : s.calls[i]? = some call) (hcalls : s'.calls = s.calls.set i call')
    (horder : s'.order = s.order) (heffect : call'.applied? = call.applied?) :
    s'.applied = s.applied := by
  rw [applied, horder]
  refine List.filterMap_congr fun j _ ↦ ?_
  rw [effect?_set hi hcalls]
  split
  · rename_i hij
    rw [← hij, effect?, hi]
    exact heffect
  · rfl

/-- The others have the effects they had. -/
theorem filterMap_effect?_of_not_mem (hi : s.calls[i]? = some call)
    (hcalls : s'.calls = s.calls.set i call') {numbers : List Nat} (hnot : i ∉ numbers) :
    numbers.filterMap s'.effect? = numbers.filterMap s.effect? := by
  refine List.filterMap_congr fun j hj ↦ ?_
  have hne : i ≠ j := fun heq ↦ hnot (heq ▸ hj)
  rw [effect?_set hi hcalls, if_neg hne]

/-- A call that takes the lock has no effect yet. -/
theorem applied_lock (hi : s.calls[i]? = some call) (hnew : i ∉ s.order)
    (hcalls : s'.calls = s.calls.set i call') (horder : s'.order = s.order ++ [i])
    (hnone : call'.applied? = none) : s'.applied = s.applied := by
  have hlast : s'.effect? i = none := by
    rw [effect?_set hi hcalls, if_pos rfl]
    exact hnone
  rw [applied, horder, List.filterMap_append, filterMap_effect?_of_not_mem hi hcalls hnew,
    List.filterMap_cons_none hlast, List.filterMap_nil, List.append_nil]
  rfl

namespace Serial

/-- **The holder comes to its effect behind all others**, since it was the last to take the lock. -/
theorem applied_effect (h : Serial first s) (hi : s.calls[i]? = some call)
    (hholder : s.holder = some i) (hcalls : s'.calls = s.calls.set i call')
    (horder : s'.order = s.order) (hbefore : call.applied? = none) {c : Change}
    (hafter : call'.applied? = some c) : s'.applied = s.applied ++ [c] := by
  obtain ⟨before, hlast⟩ := h.last i hholder
  have hnot : i ∉ before := by
    have hnodup := h.nodup
    rw [hlast] at hnodup
    exact fun hmem ↦ (List.nodup_append.1 hnodup).2.2 i hmem i List.mem_cons_self rfl
  have hnow : s'.effect? i = some c := by
    rw [effect?_set hi hcalls, if_pos rfl]
    exact hafter
  have hthen : s.effect? i = none := by
    rw [effect?, hi]
    exact hbefore
  rw [applied, applied, horder, hlast, List.filterMap_append, List.filterMap_append,
    filterMap_effect?_of_not_mem hi hcalls hnot, List.filterMap_cons_some hnow,
    List.filterMap_cons_none hthen, List.filterMap_nil, List.filterMap_nil, List.append_nil]

/-- The other calls stay where they are while one goes a step further. -/
theorem fits_set (h : Serial first s) (hi : s.calls[i]? = some call)
    (hcalls : s'.calls = s.calls.set i call') (hfree : ∀ j, i ≠ j → s.holder ≠ some j)
    (hfree' : ∀ j, i ≠ j → s'.holder ≠ some j)
    (horder : ∀ j, i ≠ j → (j ∈ s'.order ↔ j ∈ s.order)) (hfits : s'.Fits i call') :
    ∀ j call', s'.calls[j]? = some call' → s'.Fits j call' := by
  intro j other hj
  rw [hcalls, getElem?_set_of_eq_some hi] at hj
  split at hj
  · rename_i hij
    rw [← Option.some.inj hj, ← hij]
    exact hfits
  · rename_i hij
    exact (h.fits j other hj).of_outside (hfree j hij) (hfree' j hij) (horder j hij)

/-- No call is lost. -/
theorem lt_length_set (h : Serial first s) (i : Nat) (call : Call) :
    ∀ j ∈ s.order, j < (s.calls.set i call).length := by
  intro j hj
  rw [List.length_set]
  exact h.lt_length j hj

/-- Reads of what has taken effect stay valid when more takes effect. -/
theorem reads_of_prefix (h : Serial first s) (hreads : s'.reads = s.reads)
    (hgrows : s.applied <+: s'.applied) : ∀ read ∈ s'.reads, ∃ past, past <+: s'.applied ∧
      read = (past.foldl Session.change first).current := by
  intro read hread
  rw [hreads] at hread
  obtain ⟨past, hpast, heq⟩ := h.reads_eq read hread
  exact ⟨past, hpast.trans hgrows, heq⟩

/-- **The holder works on inside**, without an effect on the session. -/
theorem inside (h : Serial first s) (hi : s.calls[i]? = some call)
    (hlock : call.stage.holdsLock = true) (hundone : call.stage.isDone = false)
    (hundone' : stage.isDone = false)
    (hfits : (s.setStage i call stage).Fits i ⟨call.change, stage⟩) :
    Serial first (s.setStage i call stage) := by
  have hholder := (h.fits i call hi).holder_eq hlock
  have hfree (j : Nat) (hij : i ≠ j) : s.holder ≠ some j := holder_ne hholder hij
  have happlied : (s.setStage i call stage).applied = s.applied := by
    refine applied_set hi rfl rfl ?_
    rw [Call.applied?, Call.applied?, hundone, hundone']
  refine ⟨h.fits_set hi rfl hfree hfree (fun _ _ ↦ Iff.rfl) hfits, h.lt_length_set i _, h.nodup,
    h.last, ?_, h.reads_of_prefix rfl (happlied ▸ List.prefix_rfl)⟩
  rw [happlied]
  exact h.session_eq

/-- **A free lock is taken.** -/
theorem lock (h : Serial first s) (hi : s.calls[i]? = some call) (hmade : call.stage = .made)
    (hholder : s.holder = none) :
    Serial first { s.setStage i call .locked with holder := some i, order := s.order ++ [i] } := by
  set s' : SharedSession :=
    { s.setStage i call .locked with holder := some i, order := s.order ++ [i] }
  have hnew : i ∉ s.order := by
    have hfits := h.fits i call hi
    rw [Fits, hmade] at hfits
    exact hfits.2
  have hfree (j : Nat) (_ : i ≠ j) : s.holder ≠ some j := by
    rw [hholder]
    exact nofun
  have hfree' (j : Nat) (hij : i ≠ j) : s'.holder ≠ some j := holder_ne rfl hij
  have horder (j : Nat) (hij : i ≠ j) : j ∈ s'.order ↔ j ∈ s.order := by
    show j ∈ s.order ++ [i] ↔ j ∈ s.order
    rw [List.mem_append, List.mem_singleton, or_iff_left (Ne.symm hij)]
  have happlied : s'.applied = s.applied := by
    refine applied_lock hi hnew rfl rfl ?_
    rfl
  refine ⟨h.fits_set hi rfl hfree hfree' horder rfl, fun j hj ↦ ?_, ?_, fun j hj ↦ ?_, ?_,
    h.reads_of_prefix rfl (happlied ▸ List.prefix_rfl)⟩
  · rcases List.mem_append.1 hj with hj | hj
    · exact h.lt_length_set i _ j hj
    · rw [List.mem_singleton.1 hj]
      show i < (s.calls.set i _).length
      rw [List.length_set]
      exact (List.getElem?_eq_some_iff.1 hi).1
  · exact List.nodup_append.2 ⟨h.nodup, List.nodup_singleton i, fun a ha b hb hab ↦
      hnew (List.mem_singleton.1 hb ▸ hab ▸ ha)⟩
  · rw [← Option.some.inj hj]
    exact ⟨s.order, rfl⟩
  · rw [happlied]
    exact h.session_eq

/-- **The lock is given back.** If the call did not swap, it comes to its effect by this: the
session is as its change would make it. -/
theorem unlock (h : Serial first s) (hi : s.calls[i]? = some call)
    (hlock : call.stage.holdsLock = true)
    (heffect : call.stage.isDone = true ∨
      call.stage.isDone = false ∧ s.session.change call.change = s.session) :
    Serial first { s.setStage i call .returned with holder := none } := by
  set s' : SharedSession := { s.setStage i call .returned with holder := none }
  have hcalls : s'.calls = s.calls.set i ⟨call.change, .returned⟩ := rfl
  have hholder := (h.fits i call hi).holder_eq hlock
  obtain ⟨before, hlast⟩ := h.last i hholder
  have hmem : i ∈ s'.order := by
    show i ∈ s.order
    rw [hlast]
    exact List.mem_concat_self
  have hfree (j : Nat) (hij : i ≠ j) : s.holder ≠ some j := holder_ne hholder hij
  have hnow : s.applied <+: s'.applied ∧ s'.session = s'.applied.foldl Session.change first := by
    rcases heffect with hdone | ⟨hundone, hsame⟩
    · have happlied : s'.applied = s.applied := by
        refine applied_set hi hcalls rfl ?_
        rw [Call.applied?, Call.applied?, hdone]
        rfl
      rw [happlied]
      exact ⟨List.prefix_rfl, h.session_eq⟩
    · have happlied : s'.applied = s.applied ++ [call.change] := by
        refine h.applied_effect hi hholder hcalls rfl ?_ rfl
        rw [Call.applied?, hundone]
        rfl
      rw [happlied, List.foldl_append, ← h.session_eq]
      exact ⟨List.prefix_append _ _, hsame.symm⟩
  exact ⟨h.fits_set hi rfl hfree (fun _ _ ↦ nofun) (fun _ _ ↦ Iff.rfl) ⟨nofun, hmem⟩,
    h.lt_length_set i _, h.nodup, nofun, hnow.2, h.reads_of_prefix rfl hnow.1⟩

/-- **A swap is a change of the session as it is**, since nobody else has swapped since the call
read it. -/
theorem swap (h : Serial first s) (hi : s.calls[i]? = some call) {next : Snapshot}
    (hbuilt : call.stage = .built next) :
    Serial first { s.setStage i call .swapped with session := ⟨next⟩ } := by
  set s' : SharedSession := { s.setStage i call .swapped with session := ⟨next⟩ }
  have hcalls : s'.calls = s.calls.set i ⟨call.change, .swapped⟩ := rfl
  have hfits := h.fits i call hi
  rw [Fits, hbuilt] at hfits
  obtain ⟨hholder, hnext⟩ := hfits
  have hfree (j : Nat) (hij : i ≠ j) : s.holder ≠ some j := holder_ne hholder hij
  have happlied : s'.applied = s.applied ++ [call.change] := by
    refine h.applied_effect hi hholder hcalls rfl ?_ rfl
    rw [Call.applied?, hbuilt]
    rfl
  refine ⟨h.fits_set hi rfl hfree hfree (fun _ _ ↦ Iff.rfl) hholder, h.lt_length_set i _, h.nodup,
    h.last, ?_, h.reads_of_prefix rfl (happlied ▸ List.prefix_append _ _)⟩
  rw [happlied, List.foldl_append, ← h.session_eq]
  exact (Session.change_of_build?_eq_some hnext).symm

/-- A call goes one step further. -/
theorem advance (h : Serial first s) (hi : s.calls[i]? = some call)
    (hs : s.advance? i call = some s') : Serial first s' := by
  have hfits := h.fits i call hi
  rw [Fits] at hfits
  rcases advance?_cases hs with ⟨hmade, hfree, rfl⟩ | ⟨hlocked, rfl⟩ |
    ⟨read, next, hreading, hnext, rfl⟩ | ⟨read, hreading, hnone, rfl⟩ | ⟨next, hbuilt, rfl⟩ |
    ⟨hswapped, rfl⟩
  · exact h.lock hi hmade hfree
  · rw [hlocked] at hfits
    exact h.inside hi (by rw [hlocked]; rfl) (by rw [hlocked]; rfl) rfl ⟨hfits, rfl⟩
  · rw [hreading] at hfits
    refine h.inside hi (by rw [hreading]; rfl) (by rw [hreading]; rfl) rfl ⟨hfits.1, ?_⟩
    rw [← hnext, hfits.2]
    rfl
  · rw [hreading] at hfits
    refine h.unlock hi (by rw [hreading]; rfl) (Or.inr ⟨by rw [hreading]; rfl, ?_⟩)
    rw [hfits.2] at hnone
    exact Session.change_of_build?_eq_none hnone
  · exact h.swap hi hbuilt
  · exact h.unlock hi (by rw [hswapped]; rfl) (Or.inl (by rw [hswapped]; rfl))

/-- A new call has not taken the lock. -/
theorem made (h : Serial first s) (change : Change) :
    Serial first { s with calls := s.calls ++ [⟨change, .made⟩] } := by
  set s' : SharedSession := { s with calls := s.calls ++ [⟨change, .made⟩] }
  have happlied : s'.applied = s.applied := by
    refine List.filterMap_congr fun j hj ↦ ?_
    rw [effect?, effect?, show s'.calls[j]? = s.calls[j]? from
      List.getElem?_append_left (h.lt_length j hj)]
  refine ⟨fun j call hj ↦ ?_, fun j hj ↦ ?_, h.nodup, h.last, ?_,
    h.reads_of_prefix rfl (happlied ▸ List.prefix_rfl)⟩
  · rcases Nat.lt_trichotomy j s.calls.length with hlt | rfl | hgt
    · rw [show s'.calls[j]? = s.calls[j]? from List.getElem?_append_left hlt] at hj
      exact h.fits j call hj
    · have hnew : s.calls.length ∉ s.order := fun hmem ↦ Nat.lt_irrefl _ (h.lt_length _ hmem)
      obtain rfl := Option.some.inj (List.getElem?_concat_length.symm.trans hj)
      refine ⟨fun hholder ↦ ?_, hnew⟩
      obtain ⟨before, hlast⟩ := h.last _ hholder
      exact hnew (hlast ▸ List.mem_concat_self)
    · have hnone : s'.calls[j]? = none := List.getElem?_eq_none (by simp [s']; omega)
      rw [hnone] at hj
      cases hj
  · show j < (s.calls ++ [_]).length
    rw [List.length_append]
    exact Nat.lt_add_right _ (h.lt_length j hj)
  · rw [happlied]
    exact h.session_eq

/-- A read sees what has taken effect. -/
theorem read (h : Serial first s) :
    Serial first { s with reads := s.reads ++ [s.session.current] } := by
  refine ⟨h.fits, h.lt_length, h.nodup, h.last, h.session_eq, fun read hread ↦ ?_⟩
  rcases List.mem_append.1 hread with hread | hread
  · exact h.reads_eq read hread
  · exact ⟨s.applied, List.prefix_rfl, by rw [List.mem_singleton.1 hread, h.session_eq]⟩

/-- **Every move keeps the invariant.** -/
theorem next (h : Serial first s) {move : Move} (hs : s.next? move = some s') :
    Serial first s' := by
  cases move with
  | call change =>
    rw [← Option.some.inj hs]
    exact h.made change
  | advance i =>
    obtain ⟨call, hi, hadvance⟩ := Option.bind_eq_some_iff.1 hs
    exact h.advance hi hadvance
  | read =>
    rw [← Option.some.inj hs]
    exact h.read

/-- **Every interleaving keeps it**, by induction on its moves. -/
theorem run (h : Serial first s) {moves : List Move} (hs : s.run? moves = some s') :
    Serial first s' := by
  induction moves generalizing s with
  | nil =>
    rw [← Option.some.inj hs]
    exact h
  | cons move moves ih =>
    rw [run?, List.foldlM_cons] at hs
    obtain ⟨s₁, hnext, hrest⟩ := Option.bind_eq_some_iff.1 hs
    exact ih (h.next hnext) hrest

/-- The calls that have taken the lock are those that have got beyond being made. -/
theorem mem_order_iff (h : Serial first s) :
    i ∈ s.order ↔ ∃ call, s.calls[i]? = some call ∧ call.stage ≠ .made := by
  constructor
  · intro hmem
    refine ⟨_, List.getElem?_eq_getElem (h.lt_length i hmem), fun hmade ↦ ?_⟩
    have hfits := h.fits i _ (List.getElem?_eq_getElem (h.lt_length i hmem))
    rw [Fits, hmade] at hfits
    exact hfits.2 hmem
  · rintro ⟨call, hi, hne⟩
    have hfits := h.fits i call hi
    have hinside (hlock : call.stage.holdsLock = true) : i ∈ s.order := by
      obtain ⟨before, hlast⟩ := h.last i (hfits.holder_eq hlock)
      exact hlast ▸ List.mem_concat_self
    cases hstage : call.stage with
    | made => exact absurd hstage hne
    | locked => exact hinside (by rw [hstage]; rfl)
    | reading read => exact hinside (by rw [hstage]; rfl)
    | built next => exact hinside (by rw [hstage]; rfl)
    | swapped => exact hinside (by rw [hstage]; rfl)
    | returned =>
      rw [Fits, hstage] at hfits
      exact hfits.2

end Serial

/-! ### What users see -/

/-- A call that has the lock can always go on. -/
theorem exists_advance?_of_holdsLock (s : SharedSession) (i : Nat)
    (hlock : call.stage.holdsLock = true) : ∃ s', s.advance? i call = some s' := by
  unfold advance?
  cases hstage : call.stage with
  | made => rw [hstage] at hlock; cases hlock
  | locked => exact ⟨_, rfl⟩
  | reading read =>
    dsimp only
    cases call.change.build? read with
    | none => exact ⟨_, rfl⟩
    | some next => exact ⟨_, rfl⟩
  | built next => exact ⟨_, rfl⟩
  | swapped => exact ⟨_, rfl⟩
  | returned => rw [hstage] at hlock; cases hlock

/-- **Nobody waits in vain.** As long as a call has not returned, some call can go on: the one that
has the lock, or this one if the lock is free. -/
theorem Serial.exists_next (h : Serial first s) (hi : s.calls[i]? = some call)
    (hwaits : call.stage ≠ .returned) : ∃ j s', s.next? (.advance j) = some s' := by
  cases hholder : s.holder with
  | none =>
    refine ⟨i, ?_⟩
    have hmade : call.stage = .made := by
      cases hstage : call.stage with
      | made => rfl
      | returned => exact absurd hstage hwaits
      | _ => cases hholder.symm.trans ((h.fits i call hi).holder_eq (by rw [hstage]; rfl))
    rw [next?, hi, Option.bind_some, advance?, hmade, hholder]
    exact ⟨_, rfl⟩
  | some j =>
    obtain ⟨before, hlast⟩ := h.last j hholder
    obtain ⟨inside, hj, -⟩ := h.mem_order_iff.1 (hlast ▸ List.mem_concat_self)
    have hfits := h.fits j inside hj
    have hlock : inside.stage.holdsLock = true := by
      rw [Fits] at hfits
      cases hstage : inside.stage with
      | made => rw [hstage] at hfits; exact absurd hholder hfits.1
      | returned => rw [hstage] at hfits; exact absurd hholder hfits.1
      | _ => rfl
    obtain ⟨s', hs'⟩ := exists_advance?_of_holdsLock s j hlock
    exact ⟨j, s', by rw [next?, hj]; exact hs'⟩

end SharedSession

end MethodFingerprint
