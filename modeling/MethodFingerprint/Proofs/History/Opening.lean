import MethodFingerprint.Proofs.Database.Contents
import MethodFingerprint.Proofs.History.Transaction
import Mathlib.Tactic.SplitIfs

/-!
# Opening a history

Opening goes by the version of the database. A later version than the current one is refused, the
current one is left as it is, and on any other the statements of the migration are carried out. What
they make of the contents is `Contents.withHistory`, and `Contents.AdmitsHistory` says of which
contents they can be carried out at all: of those of a database that a history was in before, of
those of a new one, but not of all that somebody else may have put under the names of the tables.

`Opens` sums up what opening makes of the contents. It is what opening does if it succeeds
(`Backend.opens_of_openHistory`), opening that fails does nothing
(`Backend.refuses_of_openHistory`), and on a reliable engine it succeeds wherever there is something
that it makes of the contents (`Backend.exists_openHistory_of_opens`).
-/

namespace MethodFingerprint

open Database

namespace History

variable {Db : Type} {b : Backend Db} {v : View Db} {d d' : Db} {e : HistoryError}

/-! ### The migration -/

/-- The edits that set a history up. -/
def schema : List Edit :=
  [.createTable "runs" runLayout, .createIndex "runs_target" "runs" "target",
    .createTable "fingerprints" fingerprintLayout, .setVersion 1]

/-- Carries out edits one after another. -/
def Backend.editAll (b : Backend Db) (edits : List Edit) : Action Db Unit :=
  edits.forM fun x ↦ b.execute (.edit x)

/-- What edits make of the contents. -/
def MakeAll : List Edit → Contents → Contents → Prop :=
  Steps fun x c c' ↦ ∃ key, x.Makes c c' key

theorem Works.editAll (h : b.engine.Lawful v) (edits : List Edit) :
    Works v (b.editAll edits) fun c _ c' ↦ MakeAll edits c c' :=
  Works.forM (fun x ↦ Works.edit h x) edits

/-- What edits need of the contents. -/
def ArePossible : List Edit → Contents → Prop :=
  CanStep (fun x c ↦ x.IsPossible c) fun x c c' ↦ ∃ key, x.Makes c c' key

theorem Succeeds.editAll (h : b.engine.Reliable v) (edits : List Edit) :
    Succeeds v (b.editAll edits) (ArePossible edits) :=
  Succeeds.forM (fun x ↦ Succeeds.edit h x) (fun x ↦ Works.edit h.toLawful x) edits

/-- **The migration is the schema in one transaction.** -/
theorem forM_migration : migration.forM b.execute = b.batch (b.editAll schema) := by
  show (do b.execute .begin; forM (schema.map Statement.edit ++ [Statement.commit]) b.execute) = _
  rw [List.forM_append, List.forM_map]
  rfl

/-- Statements fail by an error of the database. -/
theorem exists_eq_sql_of_forM_execute {statements : List Statement}
    (h : statements.forM b.execute d = (.error e, d')) : ∃ r, e = .sql r := by
  induction statements generalizing d with
  | nil => nomatch (Prod.mk.inj h).1
  | cons s rest ih =>
    obtain herror | ⟨-, d₁, -, hrest⟩ := Action.bind_eq_error_iff.1 h
    · obtain ⟨r, -, rfl⟩ := Backend.execute_eq_error_iff.1 herror
      exact ⟨r, rfl⟩
    · exact ih hrest

end History

namespace Database.Contents

variable {c c' : Contents}

/-- Contents with the tables of a history; those that are there stay as they are. -/
def withHistory (c : Contents) : Contents :=
  let indexed :=
    (c.withTable "runs" History.runLayout).withIndex "runs_target" "runs" "target"
  { indexed.withTable "fingerprints" History.fingerprintLayout with
    version := History.currentVersion }

/-- **A history can be set up**: what there is under the names of its tables and of its index may
pass for them. -/
structure AdmitsHistory (c : Contents) : Prop where
  /-- What has the name of the runs can have indices, and this one unless it is there. -/
  runs (o : Object) : c.object "runs" = some o → ∃ columns, o.indexable? = some columns ∧
    (c.object "runs_target" = none → "target" ∈ columns)
  index (o : Object) : c.object "runs_target" = some o → o.isIndex = true
  fingerprints (o : Object) : c.object "fingerprints" = some o → o.isIndex = false

/-- A history can be set up where the edits of the schema are possible one after another. -/
theorem admitsHistory_iff : c.AdmitsHistory ↔
    c.takesTable "runs" = true ∧
    (c.withTable "runs" History.runLayout).takesIndex "runs_target" "runs" "target" = true ∧
    c.takesTable "fingerprints" = true := by
  have htarget : (c.withTable "runs" History.runLayout).object "runs_target" =
      c.object "runs_target" := object_withTable_of_ne (by decide) _
  rw [takesTable_eq_true_iff, takesTable_eq_true_iff, takesIndex_eq_true_iff, htarget,
    object_withTable_self]
  constructor
  · rintro ⟨hruns, hindex, hfingerprints⟩
    refine ⟨fun o ho ↦ ?_, ?_, hfingerprints⟩
    · obtain ⟨columns, hcolumns, -⟩ := hruns o ho
      cases o with
      | index => nomatch hcolumns
      | _ => rfl
    · cases ho : c.object "runs" with
      | none => exact ⟨_, _, rfl, rfl, fun _ ↦ by decide, hindex⟩
      | some o =>
        obtain ⟨columns, hcolumns, hmem⟩ := hruns o ho
        exact ⟨o, columns, rfl, hcolumns, hmem, hindex⟩
  · rintro ⟨-, ⟨o, columns, ho, hcolumns, hmem, hindex⟩, hfingerprints⟩
    refine ⟨fun o' ho' ↦ ?_, hindex, hfingerprints⟩
    rw [ho'] at ho
    obtain rfl := Option.some.inj ho
    exact ⟨columns, hcolumns, hmem⟩

/-- The edits before it do not stand in the way of the table of fingerprints. -/
theorem takesTable_fingerprints :
    ((c.withTable "runs" History.runLayout).withIndex "runs_target" "runs" "target").takesTable
      "fingerprints" = c.takesTable "fingerprints" := by
  rw [takesTable, takesTable, object_withIndex_of_ne (by decide),
    object_withTable_of_ne (by decide)]

/-- **What the schema makes of the contents**, if its edits are carried out. -/
theorem eq_withHistory_of_makeAll (h : History.MakeAll History.schema c c') :
    c.AdmitsHistory ∧ c' = c.withHistory := by
  obtain ⟨_, ⟨_, hruns⟩, _, ⟨_, hindex⟩, _, ⟨_, hfingerprints⟩, _, ⟨_, hversion⟩, rfl⟩ := h
  cases hruns with | createTable _ hruns =>
  cases hindex with | createIndex hindex =>
  cases hfingerprints with | createTable _ hfingerprints =>
  cases hversion
  exact ⟨admitsHistory_iff.2 ⟨hruns, hindex, takesTable_fingerprints.symm.trans hfingerprints⟩, rfl⟩

/-- **The schema is possible** where a history can be set up. -/
theorem AdmitsHistory.arePossible (h : c.AdmitsHistory) : History.ArePossible History.schema c := by
  obtain ⟨hruns, hindex, hfingerprints⟩ := admitsHistory_iff.1 h
  refine ⟨⟨by decide, by decide, hruns⟩, ?_⟩
  rintro _ ⟨-, ⟨⟩⟩
  refine ⟨⟨by decide, hindex⟩, ?_⟩
  rintro _ ⟨-, ⟨⟩⟩
  refine ⟨⟨by decide, by decide, takesTable_fingerprints.trans hfingerprints⟩, ?_⟩
  rintro _ ⟨-, ⟨⟩⟩
  exact ⟨trivial, fun _ _ ↦ trivial⟩

@[simp] theorem version_withHistory (c : Contents) :
    c.withHistory.version = History.currentVersion :=
  rfl

theorem object_runs_withHistory (c : Contents) : c.withHistory.object "runs" =
    some ((c.object "runs").getD (.table { layout := History.runLayout })) := by
  show (withTable _ _ _).object "runs" = _
  rw [object_withTable_of_ne (by decide), object_withIndex_of_ne (by decide), object_withTable_self]

theorem object_index_withHistory (c : Contents) : c.withHistory.object "runs_target" =
    some ((c.object "runs_target").getD (.index "runs" "target")) := by
  show (withTable _ _ _).object "runs_target" = _
  rw [object_withTable_of_ne (by decide), object_withIndex_self, object_withTable_of_ne (by decide)]

theorem object_fingerprints_withHistory (c : Contents) : c.withHistory.object "fingerprints" =
    some ((c.object "fingerprints").getD (.table { layout := History.fingerprintLayout })) := by
  show (withTable _ _ _).object "fingerprints" = _
  rw [object_withTable_self, object_withIndex_of_ne (by decide), object_withTable_of_ne (by decide)]

/-- **Setting a history up leaves all rows as they are**, those of its own tables included. -/
@[simp] theorem rows_withHistory (c : Contents) (name : String) :
    c.withHistory.rows name = c.rows name := by
  simp [withHistory]

end Database.Contents

/-! ### Opening -/

namespace History

variable {Db : Type} {b : Backend Db} {v : View Db} {d d' : Db} {e : HistoryError}
  {c c' c'' : Contents}

/-- **What opening a history makes of the contents of a database.** There is nothing that it makes
of the contents of a later version, and of those that a history cannot be set up in. -/
inductive Opens : Contents → Contents → Prop
  | current {c : Contents} (h : c.version = currentVersion) : Opens c c
  | earlier {c : Contents} (h : c.version < currentVersion) (hadmits : c.AdmitsHistory) :
      Opens c c.withHistory

namespace Opens

theorem version_eq (h : Opens c c') : c'.version = currentVersion := by
  cases h with
  | current h => exact h
  | earlier => exact c.version_withHistory

/-- Opening leaves all rows as they are. -/
theorem rows_eq (h : Opens c c') (name : String) : c'.rows name = c.rows name := by
  cases h with
  | current => rfl
  | earlier => exact c.rows_withHistory name

/-- Contents of the current version are opened as they are. -/
theorem eq_of_version (h : Opens c c') (hversion : c.version = currentVersion) : c' = c := by
  cases h with
  | current => rfl
  | earlier hlt => exact absurd hlt (hversion ▸ Int32.lt_irrefl)

/-- A later version is not opened. -/
theorem version_le (h : Opens c c') : c.version ≤ currentVersion := by
  cases h with
  | current hversion => exact hversion ▸ Int32.le_refl _
  | earlier hlt => exact Int32.le_of_lt hlt

/-- Where a history can be set up, no version but a later one stands in the way. -/
theorem exists_of_version_le (hadmits : c.AdmitsHistory) (hle : c.version ≤ currentVersion) :
    ∃ c', Opens c c' := by
  by_cases hlt : c.version < currentVersion
  · exact ⟨_, .earlier hlt hadmits⟩
  · exact ⟨c, .current (Int32.le_antisymm hle (Int32.not_lt.1 hlt))⟩

theorem admitsHistory_of_lt (h : Opens c c') (hlt : c.version < currentVersion) :
    c.AdmitsHistory := by
  cases h with
  | current hversion => exact absurd hlt (hversion ▸ Int32.lt_irrefl)
  | earlier _ hadmits => exact hadmits

theorem unique (h : Opens c c') (h' : Opens c c'') : c'' = c' := by
  cases h with
  | current hversion => exact h'.eq_of_version hversion
  | earlier hlt =>
    cases h' with
    | current hversion => exact absurd hlt (hversion ▸ Int32.lt_irrefl)
    | earlier => rfl

end Opens

/-- **Why a history is refused**: for its version, or by an error of the database. -/
def Refuses (c : Contents) (e : HistoryError) : Prop :=
  (currentVersion < c.version ∧
    e = .unsupportedVersion c.version firstVersion currentVersion) ∨ ∃ r, e = .sql r

namespace Backend

theorem version_eq_ok_iff {found : Int32} :
    b.version d = (.ok found, d') ↔ b.engine.version d = .ok found ∧ d' = d := by
  rw [version, Prod.mk.injEq, mapError_eq_ok_iff, eq_comm (a := d)]

theorem version_eq_error_iff :
    b.version d = (.error e, d') ↔ (∃ r, b.engine.version d = .error r ∧ e = .sql r) ∧ d' = d := by
  rw [version, Prod.mk.injEq, mapError_eq_error_iff, eq_comm (a := d)]
  simp only [eq_comm (a := e)]

theorem connect_eq_ok_iff : b.connect d = (.ok (), d') ↔ b.engine.connect d = .ok d' := by
  rw [connect]
  cases b.engine.connect d <;> simp

theorem connect_eq_error_iff :
    b.connect d = (.error e, d') ↔ (∃ r, b.engine.connect d = .error r ∧ e = .sql r) ∧ d' = d := by
  rw [connect]
  cases b.engine.connect d <;> simp [eq_comm]

/-- A migration that succeeds makes of the contents what opening is to make of them. -/
theorem opens_of_migrate (h : b.engine.Lawful v) (hd : v.idle d)
    (hok : b.migrate d = (.ok (), d')) : v.idle d' ∧ Opens (v.seen d) (v.seen d') := by
  obtain ⟨found, d₁, hversion, hrest⟩ := Action.bind_eq_ok_iff.1 hok
  obtain ⟨hfound, rfl⟩ := version_eq_ok_iff.1 hversion
  obtain rfl := h.version hfound
  split at hrest
  · nomatch (Prod.mk.inj hrest).1
  · next hnotLater =>
    split at hrest
    · next hearlier =>
      rw [forM_migration] at hrest
      obtain ⟨hidle, hmade⟩ := (Works.editAll h schema).ok_of_batch h hrest
      obtain ⟨hadmits, hseen⟩ := Contents.eq_withHistory_of_makeAll hmade
      exact ⟨hidle, hseen ▸ .earlier hearlier hadmits⟩
    · next hnotEarlier =>
      obtain ⟨-, rfl⟩ := Prod.mk.inj hrest
      exact ⟨hd, .current (Int32.le_antisymm (Int32.not_lt.1 hnotLater)
        (Int32.not_lt.1 hnotEarlier))⟩

/-- A migration that fails saves nothing. -/
theorem refuses_of_migrate (h : b.engine.Lawful v) (herror : b.migrate d = (.error e, d')) :
    v.saved d' = v.saved d ∧ Refuses (v.seen d) e := by
  obtain hversion | ⟨found, d₁, hversion, hrest⟩ := Action.bind_eq_error_iff.1 herror
  · obtain ⟨⟨r, -, rfl⟩, rfl⟩ := version_eq_error_iff.1 hversion
    exact ⟨rfl, .inr ⟨r, rfl⟩⟩
  · obtain ⟨hfound, rfl⟩ := version_eq_ok_iff.1 hversion
    obtain rfl := h.version hfound
    split at hrest
    · next hlater =>
      obtain ⟨he, rfl⟩ := Prod.mk.inj hrest
      exact ⟨rfl, .inl ⟨hlater, (Except.error.inj he).symm⟩⟩
    · split at hrest
      · refine ⟨?_, .inr (exists_eq_sql_of_forM_execute hrest)⟩
        rw [forM_migration] at hrest
        exact (Works.editAll h schema).saved_of_batch h hrest
      · nomatch (Prod.mk.inj hrest).1

/-- **Opening that succeeds** makes of the contents what it is to make of them, and saves it. -/
theorem opens_of_openHistory (h : b.engine.Lawful v) (hd : v.idle d)
    (hok : b.openHistory d = (.ok (), d')) : v.idle d' ∧ Opens (v.seen d) (v.seen d') := by
  obtain ⟨⟨⟩, d₁, hconnect, hrest⟩ := Action.bind_eq_ok_iff.1 hok
  obtain ⟨hd₁, hsaved⟩ := h.connect (connect_eq_ok_iff.1 hconnect)
  rw [← h.seen_eq hd hd₁ hsaved]
  exact opens_of_migrate h hd₁ (orRollback_eq_ok_iff.1 hrest)

/-- **Opening that fails changes nothing.** -/
theorem refuses_of_openHistory (h : b.engine.Lawful v) (hd : v.idle d)
    (herror : b.openHistory d = (.error e, d')) :
    v.idle d' ∧ v.seen d' = v.seen d ∧ Refuses (v.seen d) e := by
  obtain hconnect | ⟨⟨⟩, d₁, hconnect, hrest⟩ := Action.bind_eq_error_iff.1 herror
  · obtain ⟨⟨r, -, rfl⟩, rfl⟩ := connect_eq_error_iff.1 hconnect
    exact ⟨hd, rfl, .inr ⟨r, rfl⟩⟩
  · obtain ⟨hd₁, hsaved⟩ := h.connect (connect_eq_ok_iff.1 hconnect)
    obtain ⟨hd', d₂, hfail, hsaved'⟩ := idle_of_orRollback h hrest
    obtain ⟨hsaved₂, hrefuses⟩ := refuses_of_migrate h hfail
    rw [h.seen_eq hd hd₁ hsaved] at hrefuses
    exact ⟨hd', h.seen_eq hd hd' (hsaved'.trans (hsaved₂.trans hsaved)), hrefuses⟩

/-- **Opening a database of the current version leaves it as it is**, whether it succeeds or not. -/
theorem saved_openHistory_of_version (h : b.engine.Lawful v) (hd : v.idle d)
    (hversion : (v.seen d).version = currentVersion) :
    v.saved (b.openHistory d).2 = v.saved d := by
  rcases hopen : b.openHistory d with ⟨e | ⟨⟩, d'⟩
  · obtain ⟨hd', hseen, -⟩ := refuses_of_openHistory h hd hopen
    exact (h.seen_eq_saved hd').symm.trans (hseen.trans (h.seen_eq_saved hd))
  · obtain ⟨hd', hopens⟩ := opens_of_openHistory h hd hopen
    exact (h.seen_eq_saved hd').symm.trans
      ((hopens.eq_of_version hversion).trans (h.seen_eq_saved hd))

/-- What a migration does, by the version that is found. -/
theorem migrate_eq {found : Int32} (hfound : b.engine.version d = .ok found) :
    b.migrate d =
      if currentVersion < found then
        (.error (.unsupportedVersion found firstVersion currentVersion), d)
      else if found < currentVersion then b.batch (b.editAll schema) d
      else (.ok (), d) := by
  rw [← forM_migration, migrate, Action.bind_apply, version_eq_ok_iff.2 ⟨hfound, rfl⟩]
  show (if currentVersion < found then Action.fail _
    else if found < currentVersion then migration.forM b.execute else pure ()) d = _
  split_ifs <;> rfl

/-- **A reliable engine opens what there is something to make of.** -/
theorem exists_openHistory_of_opens (h : b.engine.Reliable v) (hd : v.idle d)
    (hopens : Opens (v.seen d) c') :
    ∃ d', b.openHistory d = (.ok (), d') ∧ v.idle d' ∧ v.seen d' = c' := by
  obtain ⟨d₁, hconnect⟩ := h.exists_connect d hd
  obtain ⟨hd₁, hsaved⟩ := h.connect hconnect
  obtain ⟨found, hfound⟩ := h.exists_version d₁
  obtain rfl := h.version hfound
  have hseen : v.seen d₁ = v.seen d := h.seen_eq hd hd₁ hsaved
  have hmigrate : ∃ d', b.migrate d₁ = (.ok (), d') := by
    rw [migrate_eq hfound]
    rw [← hseen] at hopens
    cases hopens with
    | current hversion =>
      rw [hversion, if_neg Int32.lt_irrefl, if_neg Int32.lt_irrefl]
      exact ⟨d₁, rfl⟩
    | earlier hlt hadmits =>
      rw [if_neg (Int32.lt_asymm hlt), if_pos hlt]
      obtain ⟨⟨⟩, d', hbatch⟩ := (Succeeds.editAll h schema).batch
        (Works.editAll h.toLawful schema) h hd₁ hadmits.arePossible
      exact ⟨d', hbatch⟩
  obtain ⟨d', hmigrate⟩ := hmigrate
  have hok : b.openHistory d = (.ok (), d') :=
    Action.bind_eq_ok_iff.2
      ⟨(), d₁, connect_eq_ok_iff.2 hconnect, orRollback_eq_ok_iff.2 hmigrate⟩
  obtain ⟨hd', hmade⟩ := opens_of_openHistory h.toLawful hd hok
  exact ⟨d', hok, hd', hopens.unique hmade⟩

/-- **A reliable engine finds a later version** and refuses it. -/
theorem exists_openHistory_of_lt (h : b.engine.Reliable v) (hd : v.idle d)
    (hlater : currentVersion < (v.seen d).version) :
    ∃ d', b.openHistory d =
      (.error (.unsupportedVersion (v.seen d).version firstVersion currentVersion), d') := by
  obtain ⟨d₁, hconnect⟩ := h.exists_connect d hd
  obtain ⟨hd₁, hsaved⟩ := h.connect hconnect
  obtain ⟨found, hfound⟩ := h.exists_version d₁
  obtain rfl := h.version hfound
  rw [← h.seen_eq hd hd₁ hsaved] at hlater ⊢
  refine ⟨_, Action.bind_eq_error_iff.2 (.inr ⟨(), d₁, connect_eq_ok_iff.2 hconnect,
    orRollback_eq_error_iff.2 ⟨d₁, ?_, rfl⟩⟩)⟩
  rw [migrate_eq hfound, if_pos hlater]

end Backend

end History

end MethodFingerprint
