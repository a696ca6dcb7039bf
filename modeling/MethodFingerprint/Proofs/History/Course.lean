import MethodFingerprint.History.Course
import MethodFingerprint.Proofs.Database.Memory
import MethodFingerprint.Proofs.History.Listing
import MethodFingerprint.Proofs.History.Opening

/-!
# Histories keep what they are given

Two theorems on what happens to a history over time.

* `Backend.list_perform`: whatever runs are added to a new database, with the database closed and
  opened again in between, they get rising keys and are listed as they were added, in order, each
  with its fingerprints sorted by their signed ranks.
* `SharedHistory.openHistory_after`: opening a database changes nothing that is in it, whatever its
  version was set to, and a database that is refused is left as it was.

The first needs an engine that does what the contents allow, and codecs that read what they write.
The second is about what opening does if it succeeds, and needs an engine that keeps to its
documentation.

Both follow what the tables hold (`Keeps`) through the steps of a course, and neither looks at a row
again: opening keeps the tables (`Keeps.of_opens`), adding a run adds to them (`Keeps.of_addsRun`).
-/

namespace MethodFingerprint.History

open Database

variable {Db : Type} {b : Backend Db} {v : View Db} {d d' : Db} {c c' : Contents}
  {runs : List (Int × Run)} {fingerprints : List (Int × RankedFingerprint)} {id : Int} {r : Run}

/-! ### Steps -/

namespace Holds

/-- A history is set up where there are its tables. -/
theorem admitsHistory (h : Holds b c runs fingerprints) : c.AdmitsHistory where
  runs o ho := by
    obtain ⟨t, ht, hlayout, -⟩ := h.runs
    rw [ht] at ho
    obtain rfl := Option.some.inj ho
    refine ⟨t.layout.names, rfl, fun _ ↦ ?_⟩
    rw [hlayout]
    decide
  index o ho := by
    obtain ⟨table, column, hindex⟩ := h.index
    rw [hindex] at ho
    obtain rfl := Option.some.inj ho
    rfl
  fingerprints o ho := by
    obtain ⟨t, ht, -⟩ := h.fingerprints
    rw [ht] at ho
    obtain rfl := Option.some.inj ho
    rfl

/-- Setting a history up where it is set up changes nothing but the version. -/
theorem withHistory_eq (h : Holds b c runs fingerprints) :
    c.withHistory = { c with version := currentVersion } := by
  obtain ⟨t, ht, -⟩ := h.runs
  obtain ⟨table, column, hindex⟩ := h.index
  obtain ⟨t', ht', -⟩ := h.fingerprints
  rw [Contents.withHistory, Contents.withTable_of_some ht, Contents.withIndex_of_some hindex,
    Contents.withTable_of_some ht']

/-- What the tables hold does not depend on the version. -/
theorem setVersion (h : Holds b c runs fingerprints) (version : Int32) :
    Holds b { c with version } runs fingerprints :=
  ⟨h.runs, h.index, h.fingerprints⟩

/-- A history that has just been set up holds nothing. -/
theorem of_objects_eq_nil (h : c.objects = []) : Holds b c.withHistory [] [] := by
  have hnone (name : String) : c.object name = none := by
    rw [Contents.object, h]
    rfl
  refine ⟨⟨{ layout := runLayout }, ?_, rfl, .nil, List.forall_mem_nil _⟩,
    ⟨"runs", "target", ?_⟩, { layout := fingerprintLayout }, ?_, rfl, .nil⟩
  · rw [Contents.object_runs_withHistory, hnone]
    rfl
  · rw [Contents.object_index_withHistory, hnone]
    rfl
  · rw [Contents.object_fingerprints_withHistory, hnone]
    rfl

end Holds

namespace Keeps

/-- **Opening keeps the tables.** -/
theorem of_opens (h : Keeps b c runs) (hopens : Opens c c') : Keeps b c' runs := by
  cases hopens with
  | current => exact h
  | earlier => exact ⟨h.holds.withHistory_eq ▸ h.holds.setVersion _, h.ascending⟩

/-- **An added run is kept besides the others.** -/
theorem of_addsRun (h : Keeps b c runs) (hadds : AddsRun b r c id c') :
    Keeps b c' (runs ++ [(id, r)]) ∧ c'.version = c.version := by
  obtain ⟨hholds, hlt, hversion⟩ := hadds.holds h.holds
  refine ⟨⟨?_, ?_⟩, hversion⟩
  · rw [List.flatMap_append, List.flatMap_singleton]
    exact hholds
  · rw [List.map_append, List.map_singleton, List.pairwise_append]
    refine ⟨h.ascending, List.pairwise_singleton _ _, ?_⟩
    rintro _ hid _ hlast
    obtain ⟨run, hrun, rfl⟩ := List.mem_map.1 hid
    rw [List.mem_singleton.1 hlast]
    exact hlt run hrun

end Keeps

/-! ### Calls -/

/-- A history is set up in a database, and keeps some runs. -/
structure IsSetUp (b : Backend Db) (v : View Db) (d : Db) (runs : List (Int × Run)) : Prop where
  idle : v.idle d
  keeps : Keeps b (v.seen d) runs
  version_eq : (v.seen d).version = currentVersion

/-- A new database is set up by opening it. -/
theorem IsSetUp.of_openHistory (h : b.engine.Reliable v) (hd : v.idle d) (hnew : v.saved d = {}) :
    ∃ d', b.openHistory d = (.ok (), d') ∧ IsSetUp b v d' [] := by
  have hopens : Opens (v.seen d) ({} : Contents).withHistory := by
    rw [h.seen_eq_saved hd, hnew]
    exact .earlier (by decide) (Contents.admitsHistory_iff.2 ⟨rfl, rfl, rfl⟩)
  obtain ⟨d', hok, hd', hseen⟩ := Backend.exists_openHistory_of_opens h hd hopens
  refine ⟨d', hok, hd', ?_, ?_⟩
  · rw [hseen]
    exact ⟨.of_objects_eq_nil rfl, .nil⟩
  · rw [hseen]
    rfl

/-- One call is carried out before the others. -/
theorem Backend.perform_cons {call : Call} {calls : List Call} {d₁ : Db} {id : Option Int}
    {ids : List Int} (hcall : b.call call d = (.ok id, d₁))
    (hperform : b.perform calls d₁ = (.ok ids, d')) :
    b.perform (call :: calls) d = (.ok (id.toList ++ ids), d') :=
  Action.bind_eq_ok_iff.2 ⟨id, d₁, hcall, Action.bind_eq_ok_iff.2 ⟨ids, d', hperform, rfl⟩⟩

namespace IsSetUp

/-- **A run that is added is kept besides the others.** -/
theorem insert (h : IsSetUp b v d runs) (he : b.engine.Reliable v) (hb : b.Faithful) (r : Run) :
    ∃ id d', b.insert r d = (.ok id, d') ∧ IsSetUp b v d' (runs ++ [(id, r)]) := by
  have hworks := Works.addRun he.toLawful r
  obtain ⟨id, d', hbatch⟩ :=
    (Succeeds.addRun he hb r).batch hworks he h.idle ⟨runs, _, h.keeps.holds⟩
  obtain ⟨hidle, hadds⟩ := hworks.ok_of_batch he.toLawful hbatch
  obtain ⟨hkeeps, hversion⟩ := h.keeps.of_addsRun hadds
  exact ⟨id, d', Backend.transaction_eq_ok_iff.2 hbatch, hidle, hkeeps,
    hversion.trans h.version_eq⟩

/-- **A database that is closed and opened again keeps what it held.** -/
theorem reopen (h : IsSetUp b v d runs) (he : b.engine.Reliable v) :
    ∃ d', b.reopen d = (.ok (), d') ∧ IsSetUp b v d' runs := by
  obtain ⟨hd₁, hsaved⟩ := he.rollback d
  have hseen := he.seen_eq h.idle hd₁ hsaved
  obtain ⟨d', hok, hd', hseen'⟩ :=
    Backend.exists_openHistory_of_opens he hd₁ (.current (hseen ▸ h.version_eq))
  have hsame : v.seen d' = v.seen d := hseen'.trans hseen
  exact ⟨d', hok, hd', hsame ▸ h.keeps, hsame ▸ h.version_eq⟩

/-- **Calls add their runs** to what is kept, and none of them fails. By induction on the calls. -/
theorem perform (h : IsSetUp b v d runs) (he : b.engine.Reliable v) (hb : b.Faithful)
    (calls : List Call) :
    ∃ ids d', b.perform calls d = (.ok ids, d') ∧
      ids.length = (calls.filterMap Call.run?).length ∧
      IsSetUp b v d' (runs ++ ids.zip (calls.filterMap Call.run?)) := by
  induction calls generalizing d runs with
  | nil => exact ⟨[], d, rfl, rfl, by simpa using h⟩
  | cons call calls ih =>
    cases call with
    | insert r =>
      obtain ⟨id, d₁, hinsert, h₁⟩ := h.insert he hb r
      obtain ⟨ids, d', hperform, hlength, h'⟩ := ih h₁
      have hcall : b.call (.insert r) d = (.ok (some id), d₁) :=
        Action.bind_eq_ok_iff.2 ⟨id, d₁, hinsert, rfl⟩
      rw [List.append_assoc] at h'
      exact ⟨id :: ids, d', Backend.perform_cons hcall hperform, congrArg (· + 1) hlength, h'⟩
    | reopen =>
      obtain ⟨d₁, hreopen, h₁⟩ := h.reopen he
      obtain ⟨ids, d', hperform, hlength, h'⟩ := ih h₁
      have hcall : b.call .reopen d = (.ok none, d₁) :=
        Action.bind_eq_ok_iff.2 ⟨(), d₁, hreopen, rfl⟩
      exact ⟨ids, d', Backend.perform_cons hcall hperform, hlength, h'⟩

end IsSetUp

namespace Backend

/-- **A history gives back what it was given.** Runs are added to a new database, which may be
closed and opened again at any point. Nothing fails; the keys that are answered rise, one for each
run; and the runs are listed in the order in which they were added, unchanged but for the order of
their fingerprints, which is that of their ranks as signed words. Asked for a target, the history
lists the runs with this target in the same order. -/
theorem list_perform (h : b.engine.Reliable v) (hb : b.Faithful) (hd : v.idle d)
    (hnew : v.saved d = {}) {calls : List Call}
    (hranks : ∀ r ∈ calls.filterMap Call.run?, (r.fingerprints.map (·.rank)).Nodup) :
    ∃ ids d', (do b.openHistory; b.perform calls) d = (.ok ids, d') ∧
      ids.length = (calls.filterMap Call.run?).length ∧ ids.Pairwise (· < ·) ∧
      ∃ listed, b.list none d' = .ok listed ∧
        List.Forall₂ Run.ComesBackAs (calls.filterMap Call.run?) listed ∧
        ∀ target, b.list (some target) d' = .ok (listed.filter (·.target = target)) := by
  obtain ⟨d₁, hopen, hd₁⟩ := IsSetUp.of_openHistory h hd hnew
  obtain ⟨ids, d', hperform, hlength, hd'⟩ := hd₁.perform h hb calls
  rw [List.nil_append] at hd'
  have hruns : (ids.zip (calls.filterMap Call.run?)).map (·.2) = calls.filterMap Call.run? :=
    List.map_snd_zip (by omega)
  have hkept : ∀ run ∈ ids.zip (calls.filterMap Call.run?),
      (run.2.fingerprints.map (·.rank)).Nodup := fun run hrun ↦
    hranks run.2 (hruns ▸ List.mem_map_of_mem hrun)
  have hall : runsWith none (ids.zip (calls.filterMap Call.run?)) =
      ids.zip (calls.filterMap Call.run?) := List.filter_eq_self.2 fun _ _ ↦ rfl
  have hlisted : (ids.zip (calls.filterMap Call.run?)).map (·.2.recalled) =
      (calls.filterMap Call.run?).map Run.recalled := by
    rw [← Function.comp_def Run.recalled, ← List.map_map, hruns]
  have hlist := hd'.keeps.list_eq h hb hkept
  refine ⟨ids, d', Action.bind_eq_ok_iff.2 ⟨(), d₁, hopen, hperform⟩, hlength, ?_, _,
    (hlist none).trans (by rw [hall, hlisted]), ?_, fun target ↦ (hlist (some target)).trans ?_⟩
  · have hascending := hd'.keeps.ascending
    rwa [List.map_fst_zip (by omega)] at hascending
  · exact List.forall₂_map_right_iff.2 (List.forall₂_same.2 fun r hr ↦
      Run.comesBackAs_recalled (hranks r hr))
  · rw [← hlisted, List.filter_map]
    rfl

/-- A run with two fingerprints, the second of which has a rank that is negative as a signed word.
-/
def earlierRun : Run where
  target := ⟨"La;m()V"⟩
  corpusHash := none
  settings := { useStrings := false }
  strategy := .greedy
  complete := false
  startedAt := "1"
  finishedAt := "2"
  fingerprints := [⟨3, [⟨"string|a\"b"⟩], "x"⟩, ⟨18446744073709551615, [], "y"⟩]

/-- A run with another target and without fingerprints. -/
def laterRun : Run where
  target := ⟨"Lb;m()V"⟩
  corpusHash := some "00ff"
  settings := {}
  strategy := .exhaustive
  complete := true
  startedAt := "3"
  finishedAt := "4"
  fingerprints := []

/-- Two runs in a new database in memory that is closed and opened again behind each of them. -/
theorem list_perform_twoRuns :
    let b := ofEngine Memory.engine
    Memory.engine.Reliable Memory.view ∧ b.Faithful ∧ Memory.view.idle {} ∧
    Memory.view.saved {} = {} ∧
    (∀ r ∈ [earlierRun, laterRun], (r.fingerprints.map (·.rank)).Nodup) ∧
    ∃ ids d', (do
        b.openHistory
        b.perform [.insert earlierRun, .reopen, .insert laterRun, .reopen]) {} = (.ok ids, d') ∧
      ids.length = 2 ∧ ids.Pairwise (· < ·) ∧
      ∃ listed, b.list none d' = .ok listed ∧
        List.Forall₂ Run.ComesBackAs [earlierRun, laterRun] listed ∧
        ∀ target, b.list (some target) d' = .ok (listed.filter (·.target = target)) :=
  ⟨Memory.reliable_engine, faithful_ofEngine _, rfl, rfl, by decide,
    list_perform Memory.reliable_engine (faithful_ofEngine _) rfl rfl (by decide)⟩

end Backend

/-! ### Shared histories -/

/-- What is in a database to which some runs were added: they are kept, or there is nothing at all
and none was added. -/
def Tracks (b : Backend Db) (c : Contents) (added : List (Int × Run)) : Prop :=
  (c.objects = [] ∧ added = []) ∨ Keeps b c added

namespace Tracks

variable {added : List (Int × Run)}

theorem ascending (h : Tracks b c added) : (added.map (·.1)).Pairwise (· < ·) := by
  obtain ⟨-, rfl⟩ | hkeeps := h
  · exact .nil
  · exact hkeeps.ascending

/-- **A history can always be set up again.** -/
theorem admitsHistory (h : Tracks b c added) : c.AdmitsHistory := by
  obtain ⟨hnil, -⟩ | hkeeps := h
  · obtain ⟨version, objects⟩ := c
    obtain rfl : objects = [] := hnil
    exact Contents.admitsHistory_iff.2 ⟨rfl, rfl, rfl⟩
  · exact hkeeps.holds.admitsHistory

theorem of_opens (h : Tracks b c added) (hopens : Opens c c') : Tracks b c' added := by
  obtain ⟨hnil, rfl⟩ | hkeeps := h
  · cases hopens with
    | current => exact .inl ⟨hnil, rfl⟩
    | earlier => exact .inr ⟨.of_objects_eq_nil hnil, .nil⟩
  · exact .inr (hkeeps.of_opens hopens)

/-- A run is added only where there are tables. -/
theorem of_addsRun (h : Tracks b c added) (hadds : AddsRun b r c id c') :
    Tracks b c' (added ++ [(id, r)]) := by
  obtain ⟨hnil, -⟩ | hkeeps := h
  · obtain ⟨o, ho⟩ := hadds.exists_object
    rw [Contents.object, hnil] at ho
    cases ho
  · exact .inr (hkeeps.of_addsRun hadds).1

theorem setVersion (h : Tracks b c added) (version : Int32) :
    Tracks b { c with version } added := by
  obtain ⟨hnil, hadded⟩ | hkeeps := h
  · exact .inl ⟨hnil, hadded⟩
  · exact .inr ⟨hkeeps.holds.setVersion version, hkeeps.ascending⟩

end Tracks

namespace SharedHistory

variable {s : SharedHistory Db}

/-- What holds of a shared history at any time: no transaction is open, and what is in the database
are the runs that were added. -/
structure Sound (b : Backend Db) (v : View Db) (s : SharedHistory Db) : Prop where
  idle : v.idle s.db
  tracks : Tracks b (v.seen s.db) s.added

theorem sound_start (h : b.engine.Lawful v) (hd : v.idle d) (hnew : v.saved d = {}) :
    Sound b v { db := d } := by
  refine ⟨hd, .inl ⟨?_, rfl⟩⟩
  rw [h.seen_eq_saved hd, hnew]

/-- What opening does to a sound history. -/
theorem Sound.openHistory (hs : Sound b v s) (h : b.engine.Lawful v) (user : Nat) :
    Sound b v (s.next b (.openHistory user)) := by
  rcases hopen : b.openHistory s.db with ⟨e | ⟨⟩, db⟩
  · obtain ⟨hidle, hseen, -⟩ := Backend.refuses_of_openHistory h hs.idle hopen
    simp only [next, hopen]
    exact ⟨hidle, hseen ▸ hs.tracks⟩
  · obtain ⟨hidle, hopens⟩ := Backend.opens_of_openHistory h hs.idle hopen
    simp only [next, hopen]
    exact ⟨hidle, hs.tracks.of_opens hopens⟩

/-- What adding a run does to a sound history. -/
theorem Sound.insert (hs : Sound b v s) (h : b.engine.Lawful v) (user : Nat) (r : Run) :
    Sound b v (s.next b (.insert user r)) ∧ s.added <+: (s.next b (.insert user r)).added := by
  by_cases hopen : s.hasOpen user = true
  · have hworks := Works.addRun h r
    rcases hinsert : b.insert r s.db with ⟨e | id, db⟩
    · obtain ⟨hidle, hseen⟩ := hworks.error_of_transaction h hs.idle hinsert
      simp only [next, hopen, hinsert]
      exact ⟨⟨hidle, hseen ▸ hs.tracks⟩, List.prefix_rfl⟩
    · obtain ⟨hidle, hadds⟩ :=
        hworks.ok_of_batch h (Backend.transaction_eq_ok_iff.1 hinsert)
      simp only [next, hopen, hinsert]
      exact ⟨⟨hidle, hs.tracks.of_addsRun hadds⟩, List.prefix_append _ _⟩
  · simp only [next, hopen]
    exact ⟨hs, List.prefix_rfl⟩

/-- What a change of the version does to a sound history. -/
theorem Sound.setVersion (hs : Sound b v s) (h : b.engine.Lawful v) (version : Int32) :
    Sound b v (s.next b (.setVersion version)) := by
  rcases hexecute : b.execute (.edit (.setVersion version)) s.db with ⟨e | ⟨⟩, db⟩
  · obtain ⟨r, herror, -⟩ := Backend.execute_eq_error_iff.1 hexecute
    have hidle := h.idle_of_error herror hs.idle
    have hseen := h.seen_eq hs.idle hidle (h.saved_of_error herror)
    simp only [next, hexecute]
    exact ⟨hidle, hseen ▸ hs.tracks⟩
  · have hok := Backend.execute_eq_ok_iff.1 hexecute
    have hseen := (h.edit hok).of_setVersion
    simp only [next, hexecute]
    exact ⟨(h.idle_of_edit hok).2 hs.idle, hseen ▸ hs.tracks.setVersion version⟩

/-- **One event keeps a shared history sound**, and what was added before stays first. -/
theorem Sound.next (hs : Sound b v s) (h : b.engine.Lawful v) (e : Event) :
    Sound b v (s.next b e) ∧ s.added <+: (s.next b e).added := by
  cases e with
  | openHistory user => exact ⟨hs.openHistory h user, List.prefix_rfl⟩
  | insert user r => exact hs.insert h user r
  | setVersion version => exact ⟨hs.setVersion h version, List.prefix_rfl⟩

/-- **A course of events keeps a shared history sound**, and what was added before it stays first.
By induction on the events. -/
theorem Sound.after (hs : Sound b v s) (h : b.engine.Lawful v) (events : List Event) :
    Sound b v (s.after b events) ∧ s.added <+: (s.after b events).added := by
  induction events generalizing s with
  | nil => exact ⟨hs, List.prefix_rfl⟩
  | cons e events ih =>
    obtain ⟨hnext, hgrows⟩ := hs.next h e
    obtain ⟨hafter, hgrows'⟩ := ih hnext
    exact ⟨hafter, hgrows.trans hgrows'⟩

/-- **Opening a database changes nothing that is in it.** After any course of events in a new
database, in which users open it, add runs to it and its version is set to anything, let a user open
it.

* If it is opened, it has the current version and all rows that it had. Opening it once more,
  whoever does it, changes nothing at all. In whatever comes later, every run that is added gets a
  key above all keys given before.
* If it is refused, it is what it was; and it is refused if its version is a later one.
* An engine that does what the contents allow opens it if its version is not a later one, and
  refuses it with its version if it is. -/
theorem openHistory_after (h : b.engine.Lawful v) (hd : v.idle d) (hnew : v.saved d = {})
    (events : List Event) (user : Nat) :
    let s := ({ db := d } : SharedHistory Db).after b events
    let opened := s.next b (.openHistory user)
    ((b.openHistory s.db).1 = .ok () →
      (v.saved opened.db).version = currentVersion ∧
      (∀ table, (v.saved opened.db).rows table = (v.saved s.db).rows table) ∧
      (∀ other, v.saved (opened.next b (.openHistory other)).db = v.saved opened.db) ∧
      ∀ later, ∃ new, (opened.after b later).added = s.added ++ new ∧
        ((s.added ++ new).map (·.1)).Pairwise (· < ·)) ∧
    (∀ e, (b.openHistory s.db).1 = .error e → v.saved opened.db = v.saved s.db) ∧
    (currentVersion < (v.saved s.db).version → (b.openHistory s.db).1 ≠ .ok ()) ∧
    (b.engine.Reliable v →
      ((b.openHistory s.db).1 = .ok () ↔ (v.saved s.db).version ≤ currentVersion) ∧
      (currentVersion < (v.saved s.db).version → (b.openHistory s.db).1 =
        .error (.unsupportedVersion (v.saved s.db).version firstVersion currentVersion))) := by
  intro s opened
  have hs : Sound b v s := ((sound_start h hd hnew).after h events).1
  have hopened : Sound b v opened := hs.openHistory h user
  have hresult : b.openHistory s.db = ((b.openHistory s.db).1, opened.db) := rfl
  rw [← h.seen_eq_saved hs.idle, ← h.seen_eq_saved hopened.idle]
  refine ⟨fun hok ↦ ?_, fun e herror ↦ ?_, fun hlater hok ↦ ?_, fun hreliable ↦ ?_⟩
  · rw [hok] at hresult
    obtain ⟨-, hopens⟩ := Backend.opens_of_openHistory h hs.idle hresult
    refine ⟨hopens.version_eq, hopens.rows_eq, fun other ↦ ?_, fun later ↦ ?_⟩
    · rw [h.seen_eq_saved hopened.idle]
      exact Backend.saved_openHistory_of_version h hopened.idle hopens.version_eq
    · obtain ⟨hlater, new, hnew⟩ := hopened.after h later
      exact ⟨new, hnew.symm, hnew ▸ hlater.tracks.ascending⟩
  · rw [herror] at hresult
    exact (Backend.refuses_of_openHistory h hs.idle hresult).2.1
  · rw [hok] at hresult
    obtain ⟨-, hopens⟩ := Backend.opens_of_openHistory h hs.idle hresult
    exact Int32.not_lt.2 hopens.version_le hlater
  · refine ⟨⟨fun hok ↦ ?_, fun hle ↦ ?_⟩, fun hlater ↦ ?_⟩
    · rw [hok] at hresult
      exact (Backend.opens_of_openHistory h hs.idle hresult).2.version_le
    · obtain ⟨c', hopens⟩ := Opens.exists_of_version_le hs.tracks.admitsHistory hle
      obtain ⟨d', hok, -⟩ := Backend.exists_openHistory_of_opens hreliable hs.idle hopens
      exact congrArg Prod.fst hok
    · obtain ⟨d', herror⟩ := Backend.exists_openHistory_of_lt hreliable hs.idle hlater
      exact congrArg Prod.fst herror

/-- Two users add runs to a new database, and its version is set below the first one in between and
after them. -/
def lowered : List Event :=
  [.openHistory 0, .insert 0 Backend.earlierRun, .setVersion (-3), .openHistory 1,
    .insert 1 Backend.laterRun, .setVersion (-3)]

/-- It is opened again with both runs. -/
theorem openHistory_after_lowered :
    Memory.engine.Lawful Memory.view ∧ Memory.view.idle {} ∧ Memory.view.saved {} = {} ∧
    ∃ s opened : SharedHistory Memory,
      s = SharedHistory.after (Backend.ofEngine Memory.engine) { db := {} } lowered ∧
      opened = s.next (Backend.ofEngine Memory.engine) (.openHistory 0) ∧
      ((Backend.ofEngine Memory.engine).openHistory s.db).1 = .ok () ∧
      s.added.map (·.1) = [1, 2] ∧
      (Memory.view.saved opened.db).version = currentVersion ∧
      ∀ table,
        (Memory.view.saved opened.db).rows table = (Memory.view.saved s.db).rows table := by
  obtain ⟨s, hs⟩ : ∃ s, s = SharedHistory.after (Backend.ofEngine Memory.engine) { db := {} }
    lowered := ⟨_, rfl⟩
  have hok : ((Backend.ofEngine Memory.engine).openHistory s.db).1 = .ok () := by
    rw [hs]
    decide +kernel
  have hadded : s.added.map (·.1) = [1, 2] := by
    rw [hs]
    decide +kernel
  have hafter := openHistory_after (b := Backend.ofEngine Memory.engine)
    Memory.reliable_engine.toLawful (d := {}) rfl rfl lowered 0
  rw [← hs] at hafter
  obtain ⟨hversion, hrows, -⟩ := hafter.1 hok
  exact ⟨Memory.reliable_engine.toLawful, rfl, rfl, s, _, hs, rfl, hok, hadded, hversion, hrows⟩

end SharedHistory

end MethodFingerprint.History
