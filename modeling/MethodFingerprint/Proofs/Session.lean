import MethodFingerprint.Session.Course
import Mathlib.Data.List.Induction
import Mathlib.Tactic.ByContra

/-!
# What a session answers

Two lists are all that has to be known of the course of a session: the corpora and the settings that
the events brought in. `corpusAfter` and `settingsAfter` are the last of each, and the current
snapshot always shows that pair (`Course.shows_after`). Replacing the one half keeps the other,
because the half that is kept is read off the snapshot that is replaced, and that shows the pair
before the event.

What an event handed out never changes (`Course.getElem?_receipts_after`): a receipt is the one that
the event got, from the course as it was then. So a snapshot that is held, and a search that was
started, belong to the pair that was in force at that time.

Snapshots are told apart by their versions, which only go up (`Course.version_lt_or_current_eq`).
-/

namespace MethodFingerprint

/-! ### Snapshots -/

/-- A snapshot **shows** a corpus under some settings. -/
structure Snapshot.Shows (s : Snapshot) (corpus : List Method) (settings : Settings) : Prop where
  corpus_eq : s.corpus = corpus
  index_eq : s.index = .build corpus settings

namespace Snapshot

variable {s s' : Snapshot} {corpus : List Method} {settings : Settings}

theorem shows_build (version : Nat) (corpus : List Method) (settings : Settings) :
    (build version corpus settings).Shows corpus settings := ⟨rfl, rfl⟩

theorem Shows.settings_eq (h : s.Shows corpus settings) : s.settings = settings := by
  rw [Snapshot.settings, h.index_eq]
  rfl

/-- Answers come from the index alone. -/
theorem reply_congr (h : s.index = s'.index) (question : Question) :
    s.reply question = s'.reply question := by
  have hrender (target : MethodId) (fingerprint : Fingerprint) :
      s.render target fingerprint = s'.render target fingerprint := by
    rw [render, h, render]
  have hfeatures (target : MethodId) : s.features target = s'.features target := by
    rw [features, h, features]
  cases question with
  | features target => rw [reply, hfeatures, reply]
  | full target =>
    rw [reply, renderFull, hfeatures, reply, renderFull]
    simp only [hrender]
  | render target fingerprint => rw [reply, hrender, reply]
  | solve target budget clock => rw [reply, solve, h, reply, solve]
  | greedy target => rw [reply, solveGreedy, h, reply, solveGreedy]

/-- **A snapshot answers as one freshly built.** -/
theorem Shows.reply_eq (h : s.Shows corpus settings) (question : Question) :
    s.reply question = (build 0 corpus settings).reply question :=
  reply_congr h.index_eq question

end Snapshot

/-! ### Replacing one half -/

namespace Session

variable {s : Session} {corpus : List Method} {settings new : Settings}

/-- **A new corpus keeps the settings.** -/
theorem shows_setCorpus (h : s.current.Shows corpus settings) (new : List Method) :
    (s.setCorpus new).current.Shows new settings :=
  ⟨rfl, congrArg (Index.build new) h.settings_eq⟩

/-- Settings that are in force already change nothing. -/
theorem setSettings_of_eq (h : s.current.settings = new) : s.setSettings new = s :=
  if_pos h

theorem setSettings_of_ne (h : s.current.settings ≠ new) :
    s.setSettings new = ⟨.build (s.current.version + 1) s.current.corpus new⟩ :=
  if_neg h

/-- Other settings bring in a snapshot of the next version. -/
theorem version_lt_setSettings (h : s.current.settings ≠ new) :
    s.current.version < (s.setSettings new).current.version := by
  rw [setSettings_of_ne h]
  exact Nat.lt_succ_self _

/-- **New settings keep the corpus.** -/
theorem shows_setSettings (h : s.current.Shows corpus settings) (new : Settings) :
    (s.setSettings new).current.Shows corpus new := by
  by_cases hnew : s.current.settings = new
  · rw [setSettings_of_eq hnew, ← hnew, h.settings_eq]
    exact h
  · rw [setSettings_of_ne hnew]
    exact ⟨h.corpus_eq, congrArg (Index.build · new) h.corpus_eq⟩

end Session

/-! ### What the events brought in -/

/-- The corpus after some events: the last one brought in, or the one at the start. -/
def corpusAfter (corpus : List Method) (events : List Event) : List Method :=
  (events.filterMap Event.corpus?).getLast?.getD corpus

/-- The settings after some events: the last ones brought in, or those at the start. -/
def settingsAfter (settings : Settings) (events : List Event) : Settings :=
  (events.filterMap Event.settings?).getLast?.getD settings

theorem corpusAfter_concat (corpus : List Method) (events : List Event) (e : Event) :
    corpusAfter corpus (events ++ [e]) = e.corpus?.getD (corpusAfter corpus events) := by
  rw [corpusAfter, List.filterMap_append, List.getLast?_append]
  cases h : e.corpus? <;> simp [h, corpusAfter]

theorem settingsAfter_concat (settings : Settings) (events : List Event) (e : Event) :
    settingsAfter settings (events ++ [e]) = e.settings?.getD (settingsAfter settings events) := by
  rw [settingsAfter, List.filterMap_append, List.getLast?_append]
  cases h : e.settings? <;> simp [h, settingsAfter]

namespace Course

variable {c : Course} {corpus : List Method} {settings : Settings} {events : List Event}
  {e : Event} {j : Nat}

/-! ### One event -/

/-- **One event more.** What an event brings in replaces its half of the pair and keeps the other.
-/
theorem shows_next (h : c.session.current.Shows corpus settings) (e : Event) :
    (c.next e).session.current.Shows (e.corpus?.getD corpus) (e.settings?.getD settings) := by
  cases e with
  | setCorpus new => exact Session.shows_setCorpus h new
  | setSettings new => exact Session.shows_setSettings h new
  | hold => exact h
  | spawn target budget => exact h
  | ask question => exact h
  | askHeld number question => exact h
  | finish number clock => exact h

/-- An event keeps the snapshot or brings in one of a higher version. -/
theorem version_lt_or_current_eq_next (c : Course) (e : Event) :
    c.session.current.version < (c.next e).session.current.version ∨
      (c.next e).session.current = c.session.current := by
  cases e with
  | setCorpus new => exact Or.inl (Nat.lt_succ_self _)
  | setSettings new =>
    by_cases hnew : c.session.current.settings = new
    · exact Or.inr (congrArg Session.current (Session.setSettings_of_eq hnew))
    · exact Or.inl (Session.version_lt_setSettings hnew)
  | hold => exact Or.inr rfl
  | spawn target budget => exact Or.inr rfl
  | ask question => exact Or.inr rfl
  | askHeld number question => exact Or.inr rfl
  | finish number clock => exact Or.inr rfl

/-! ### All events -/

theorem after_concat (corpus : List Method) (settings : Settings) (events : List Event)
    (e : Event) :
    after corpus settings (events ++ [e]) = (after corpus settings events).next e := by
  rw [after, List.foldl_append]
  rfl

/-- **The current snapshot shows what was brought in last**, by induction on the last event. -/
theorem shows_after (corpus : List Method) (settings : Settings) (events : List Event) :
    (after corpus settings events).session.current.Shows (corpusAfter corpus events)
      (settingsAfter settings events) := by
  induction events using List.reverseRecOn with
  | nil => exact Snapshot.shows_build 0 corpus settings
  | append_singleton events e ih =>
    rw [after_concat, corpusAfter_concat, settingsAfter_concat]
    exact shows_next ih e

theorem length_receipts_after (corpus : List Method) (settings : Settings) (events : List Event) :
    (after corpus settings events).receipts.length = events.length := by
  induction events using List.reverseRecOn with
  | nil => rfl
  | append_singleton events e ih =>
    rw [after_concat, next, List.length_append, List.length_append, ih]
    rfl

/-- **A receipt stays what it was.** Whatever came later, it is the one that the event got. -/
theorem getElem?_receipts_after (corpus : List Method) (settings : Settings) (events : List Event)
    (j : Nat) : (after corpus settings events).receipts[j]? =
      events[j]?.map (after corpus settings (events.take j)).receipt := by
  induction events using List.reverseRecOn with
  | nil => rfl
  | append_singleton events e ih =>
    have hlen := length_receipts_after corpus settings events
    rw [after_concat, next]
    rcases Nat.lt_trichotomy j events.length with hj | rfl | hj
    · rw [List.getElem?_append_left (hlen ▸ hj), List.getElem?_append_left hj,
        List.take_append_of_le_length (Nat.le_of_lt hj), ih]
    · rw [← hlen, List.getElem?_concat_length, hlen, List.getElem?_concat_length,
        List.take_left]
      rfl
    · have hnone : (events ++ [e])[j]? = none := List.getElem?_eq_none (by simp; omega)
      rw [hnone, List.getElem?_eq_none (by simp; omega)]
      rfl

/-- **Versions tell snapshots apart.** In the course of further events the snapshot stays the same
or its version goes up. -/
theorem version_lt_or_current_eq (corpus : List Method) (settings : Settings)
    (events later : List Event) :
    (after corpus settings events).session.current.version <
        (after corpus settings (events ++ later)).session.current.version ∨
      (after corpus settings (events ++ later)).session.current =
        (after corpus settings events).session.current := by
  induction later using List.reverseRecOn with
  | nil => exact Or.inr (by rw [List.append_nil])
  | append_singleton later e ih =>
    rw [← List.append_assoc, after_concat]
    rcases version_lt_or_current_eq_next (after corpus settings (events ++ later)) e with h | h
    · refine Or.inl (Nat.lt_of_le_of_lt ?_ h)
      rcases ih with ih | ih
      · exact Nat.le_of_lt ih
      · exact Nat.le_of_eq (congrArg Snapshot.version ih.symm)
    · rwa [h]

/-! ### The answers -/

/-- The corpus and the settings after some events, freshly indexed. -/
def freshAfter (corpus : List Method) (settings : Settings) (events : List Event) : Snapshot :=
  .build 0 (corpusAfter corpus events) (settingsAfter settings events)

/-- The snapshot taken by an event is the one that was current then. -/
theorem receipt_of_hold (corpus : List Method) (settings : Settings)
    (h : events[j]? = some .hold) : (after corpus settings events).receipts[j]? =
      some (.snapshot (after corpus settings (events.take j)).session.current) := by
  rw [getElem?_receipts_after, h]
  rfl

/-- The search started by an event goes through the snapshot that was current then. -/
theorem receipt_of_spawn (corpus : List Method) (settings : Settings) {target : MethodId}
    {budget : Budget} (h : events[j]? = some (.spawn target budget)) :
    (after corpus settings events).receipts[j]? = some (.search
      ⟨(after corpus settings (events.take j)).session.current, target, budget⟩) := by
  rw [getElem?_receipts_after, h]
  rfl

/-- **A new corpus always brings in a new snapshot**, of another version than all before. -/
theorem version_next_setCorpus_ne (corpus : List Method) (settings : Settings)
    (events : List Event) (new : List Method) (k : Nat) :
    ((after corpus settings events).next (.setCorpus new)).session.current.version ≠
      (after corpus settings (events.take k)).session.current.version := by
  have hle := version_lt_or_current_eq corpus settings (events.take k) (events.drop k)
  rw [List.take_append_drop] at hle
  show (after corpus settings events).session.current.version + 1 ≠ _
  rcases hle with hlt | heq
  · omega
  · rw [heq]
    exact Nat.succ_ne_self _

/-- **A session answers from one corpus under one choice of settings.** Whatever has happened to it,

* the current snapshot holds the corpus that was brought in last, with the index of it under the
  settings that were brought in last, and answers as this pair freshly indexed;
* a snapshot that was taken earlier is the one that was current then, and answers as the pair that
  was in force then, and so does every search that was started earlier, whenever it ends;
* settings keep the snapshot exactly if they are in force already, and a corpus never does. -/
theorem answers_after (corpus : List Method) (settings : Settings) (events : List Event) :
    ((after corpus settings events).session.current.corpus = corpusAfter corpus events ∧
      (after corpus settings events).session.current.index =
        .build (corpusAfter corpus events) (settingsAfter settings events)) ∧
    (∀ question, (after corpus settings events).reply? (.ask question) =
      some ((freshAfter corpus settings events).reply question)) ∧
    (∀ j question, events[j]? = some .hold →
      (after corpus settings events).receipts[j]? =
        some (.snapshot (after corpus settings (events.take j)).session.current) ∧
      (after corpus settings events).reply? (.askHeld j question) =
        some ((freshAfter corpus settings (events.take j)).reply question)) ∧
    (∀ j target budget clock, events[j]? = some (.spawn target budget) →
      (after corpus settings events).reply? (.finish j clock) =
        some (.outcome ((freshAfter corpus settings (events.take j)).solve budget clock target))) ∧
    (∀ new, ((after corpus settings events).next (.setSettings new)).session.current =
      (after corpus settings events).session.current ↔ new = settingsAfter settings events) ∧
    ∀ new k, ((after corpus settings events).next (.setCorpus new)).session.current.version ≠
      (after corpus settings (events.take k)).session.current.version := by
  have hshows (events : List Event) := shows_after corpus settings events
  refine ⟨⟨(hshows events).corpus_eq, (hshows events).index_eq⟩, fun question ↦ ?_,
    fun j question h ↦ ⟨receipt_of_hold corpus settings h, ?_⟩, fun j target budget clock h ↦ ?_,
    fun new ↦ ?_, version_next_setCorpus_ne corpus settings events⟩
  · exact congrArg some ((hshows events).reply_eq question)
  · rw [reply?, receipt_of_hold corpus settings h]
    exact congrArg some ((hshows (events.take j)).reply_eq question)
  · rw [reply?, receipt_of_spawn corpus settings h]
    exact congrArg some ((hshows (events.take j)).reply_eq (.solve target budget clock))
  · rw [← (hshows events).settings_eq]
    constructor
    · intro hkept
      by_contra hne
      have hlt := Session.version_lt_setSettings (Ne.symm hne)
      rw [show ((after corpus settings events).session.setSettings new).current = _ from hkept]
        at hlt
      exact Nat.lt_irrefl _ hlt
    · intro heq
      exact congrArg Session.current (Session.setSettings_of_eq heq.symm)

end Course

end MethodFingerprint
