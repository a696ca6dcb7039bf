import MethodFingerprint.Proofs.Database.Memory
import MethodFingerprint.Proofs.History.Opening

/-!
# Versions that are opened

The version of a database is a number that anyone can write into it. The error on a version that is
not known names the range of those that are, from `firstVersion` to `currentVersion`, but opening
looks at the upper end of the range only. A database below it is taken for one of the first version:
if a history can be set up in it, it is opened, and the current version is written over its own.
`Backend.openHistory_by_version` says for every database what becomes of it, and where this is what
the range of known versions would have it be.
-/

namespace MethodFingerprint

open Database

/-! ### Versions and tables -/

namespace Database.Contents

variable {c : Contents} {name table column : String}

theorem withTable_setVersion (c : Contents) (version : Int32) (name : String) (layout : Layout) :
    { c with version }.withTable name layout = { c.withTable name layout with version } := by
  cases h : c.object name with
  | none =>
    have h' : { c with version }.object name = none := h
    rw [withTable_of_none h, withTable_of_none h']
    rfl
  | some o =>
    have h' : { c with version }.object name = some o := h
    rw [withTable_of_some h, withTable_of_some h']

theorem withIndex_setVersion (c : Contents) (version : Int32) (name table column : String) :
    { c with version }.withIndex name table column =
      { c.withIndex name table column with version } := by
  cases h : c.object name with
  | none =>
    have h' : { c with version }.object name = none := h
    rw [withIndex_of_none h, withIndex_of_none h']
    rfl
  | some o =>
    have h' : { c with version }.object name = some o := h
    rw [withIndex_of_some h, withIndex_of_some h']

/-- Whether a history can be set up does not depend on the version, -/
theorem admitsHistory_setVersion (c : Contents) (version : Int32) :
    { c with version }.AdmitsHistory ↔ c.AdmitsHistory :=
  ⟨fun h ↦ ⟨h.runs, h.index, h.fingerprints⟩, fun h ↦ ⟨h.runs, h.index, h.fingerprints⟩⟩

/-- nor does what comes of it. -/
theorem withHistory_setVersion (c : Contents) (version : Int32) :
    { c with version }.withHistory = c.withHistory := by
  simp only [withHistory, withTable_setVersion, withIndex_setVersion]

end Database.Contents

namespace History

variable {Db : Type} {b : Backend Db} {v : View Db} {d : Db}

/-- A version in the range that the error on other versions names. -/
def IsKnown (version : Int32) : Prop := firstVersion ≤ version ∧ version ≤ currentVersion

/-- The range is that of the versions that are known. -/
theorem HistoryError.message_unsupportedVersion (found : Int32) :
    (unsupportedVersion found firstVersion currentVersion).message =
      "Unsupported schema version " ++ toString found.toInt ++ "; supported range is 0..=1" := by
  have hrange : "; supported range is " ++ (toString firstVersion.toInt ++ ("..=" ++
      toString currentVersion.toInt)) = "; supported range is 0..=1" := by decide +kernel
  unfold message
  rw [← hrange]
  simp only [String.append_assoc]

theorem firstVersion_lt : firstVersion < currentVersion := by decide

/-- Between the first version and the current one there is none. -/
theorem eq_firstVersion_of_lt {version : Int32} (hfirst : firstVersion ≤ version)
    (hlt : version < currentVersion) : version = firstVersion := by
  have hfirst' : firstVersion.toInt = 0 := rfl
  have hcurrent' : currentVersion.toInt = 1 := rfl
  rw [Int32.le_iff_toInt_le] at hfirst
  rw [Int32.lt_iff_toInt_lt] at hlt
  exact Int32.toInt_inj.1 (by omega)

/-- **Below the first version, opening makes of the contents what it makes of them on the first.**
-/
theorem opens_setVersion {c c' : Contents} (h : c.version < firstVersion) :
    Opens c c' ↔ Opens { c with version := firstVersion } c' := by
  have hlt : c.version < currentVersion := Int32.lt_trans h firstVersion_lt
  constructor
  · intro hopens
    cases hopens with
    | current hversion => exact absurd hlt (hversion ▸ Int32.lt_irrefl)
    | earlier _ hadmits =>
      rw [← Contents.withHistory_setVersion c firstVersion]
      exact .earlier firstVersion_lt ((Contents.admitsHistory_setVersion c _).2 hadmits)
  · intro hopens
    cases hopens with
    | current hversion => nomatch (hversion : firstVersion = currentVersion)
    | earlier _ hadmits =>
      rw [Contents.withHistory_setVersion]
      exact .earlier hlt ((Contents.admitsHistory_setVersion c _).1 hadmits)

namespace Backend

/-! ### Databases and versions -/

/-- Opening gives an answer, and leaves the database with some contents and without a transaction.
-/
def OpeningGives (b : Backend Db) (v : View Db) (d : Db) (answer : Except HistoryError Unit)
    (c : Contents) : Prop :=
  ∃ d', b.openHistory d = (answer, d') ∧ v.idle d' ∧ v.saved d' = c

/-- Opening goes by the range of known versions: a database in it is opened, any other one is
refused with its version, and is left as it was. -/
def OpensIfKnown (b : Backend Db) (v : View Db) (d : Db) : Prop :=
  ((∃ d', b.openHistory d = (.ok (), d')) ↔ IsKnown (v.saved d).version) ∧
  (¬IsKnown (v.saved d).version → b.OpeningGives v d
    (.error (.unsupportedVersion (v.saved d).version firstVersion currentVersion)) (v.saved d))

theorem openingGives_ok (h : b.engine.Reliable v) (hd : v.idle d) {c' : Contents}
    (hopens : Opens (v.saved d) c') : b.OpeningGives v d (.ok ()) c' := by
  rw [← h.seen_eq_saved hd] at hopens
  obtain ⟨d', hok, hd', hseen⟩ := exists_openHistory_of_opens h hd hopens
  exact ⟨d', hok, hd', (h.seen_eq_saved hd').symm.trans hseen⟩

theorem openingGives_error (h : b.engine.Lawful v) (hd : v.idle d) {e : HistoryError} {d' : Db}
    (herror : b.openHistory d = (.error e, d')) :
    b.OpeningGives v d (.error e) (v.saved d) ∧ Refuses (v.saved d) e := by
  obtain ⟨hd', hseen, hrefuses⟩ := refuses_of_openHistory h hd herror
  rw [h.seen_eq_saved hd] at hseen hrefuses
  exact ⟨⟨d', herror, hd', (h.seen_eq_saved hd').symm.trans hseen⟩, hrefuses⟩

/-- A later version is refused. -/
theorem openingGives_of_lt (h : b.engine.Reliable v) (hd : v.idle d)
    (hlater : currentVersion < (v.saved d).version) : b.OpeningGives v d
      (.error (.unsupportedVersion (v.saved d).version firstVersion currentVersion))
      (v.saved d) := by
  rw [← h.seen_eq_saved hd] at hlater
  obtain ⟨d', herror⟩ := exists_openHistory_of_lt h hd hlater
  rw [h.seen_eq_saved hd] at herror
  exact (openingGives_error h.toLawful hd herror).1

/-- A database that a history cannot be set up in is refused by an error of the database. -/
theorem openingGives_of_not_admits (h : b.engine.Reliable v) (hd : v.idle d)
    (hlt : (v.saved d).version < currentVersion) (hadmits : ¬(v.saved d).AdmitsHistory) :
    ∃ r, b.OpeningGives v d (.error (.sql r)) (v.saved d) := by
  rcases hopen : b.openHistory d with ⟨e | ⟨⟩, d'⟩
  · obtain ⟨hgives, ⟨hlater, -⟩ | ⟨r, rfl⟩⟩ := openingGives_error h.toLawful hd hopen
    · exact absurd hlt (Int32.lt_asymm hlater)
    · exact ⟨r, hgives⟩
  · obtain ⟨-, hopens⟩ := opens_of_openHistory h.toLawful hd hopen
    rw [h.seen_eq_saved hd] at hopens
    exact absurd (hopens.admitsHistory_of_lt hlt) hadmits

/-- Opening goes by the range of known versions, except below it, and except in a database of the
first version that a history cannot be set up in. -/
theorem opensIfKnown_iff (h : b.engine.Reliable v) (hd : v.idle d) :
    b.OpensIfKnown v d ↔ currentVersion ≤ (v.saved d).version ∨
      (v.saved d).version = firstVersion ∧ (v.saved d).AdmitsHistory := by
  constructor
  · intro ⟨hopens, hrefuses⟩
    by_cases hlt : (v.saved d).version < currentVersion
    · refine .inr ?_
      by_cases hadmits : (v.saved d).AdmitsHistory
      · obtain ⟨d', hok, -⟩ := openingGives_ok h hd (.earlier hlt hadmits)
        exact ⟨eq_firstVersion_of_lt (hopens.1 ⟨d', hok⟩).1 hlt, hadmits⟩
      · -- the answer would have to be another error than the one of the database
        obtain ⟨r, d', hsql, -⟩ := openingGives_of_not_admits h hd hlt hadmits
        have hunknown : ¬IsKnown (v.saved d).version := fun hknown ↦ by
          obtain ⟨d'', hok⟩ := hopens.2 hknown
          nomatch hsql.symm.trans hok
        obtain ⟨d'', hunsupported, -⟩ := hrefuses hunknown
        nomatch hsql.symm.trans hunsupported
    · exact .inl (Int32.not_lt.1 hlt)
  · rintro (hle | ⟨hfirst, hadmits⟩)
    · by_cases hlater : currentVersion < (v.saved d).version
      · have hgives := openingGives_of_lt h hd hlater
        have hunknown : ¬IsKnown (v.saved d).version := fun hknown ↦
          Int32.not_lt.2 hknown.2 hlater
        have ⟨d', herror, _⟩ := hgives
        refine ⟨iff_of_false (fun ⟨d'', hok⟩ ↦ ?_) hunknown, fun _ ↦ hgives⟩
        nomatch herror.symm.trans hok
      · have hversion := Int32.le_antisymm (Int32.not_lt.1 hlater) hle
        have hknown : IsKnown (v.saved d).version := by
          rw [hversion]
          exact ⟨by decide, by decide⟩
        obtain ⟨d', hok, -⟩ := openingGives_ok h hd (.current hversion)
        exact ⟨iff_of_true ⟨d', hok⟩ hknown, fun hunknown ↦ absurd hknown hunknown⟩
    · have hknown : IsKnown (v.saved d).version := by
        rw [hfirst]
        exact ⟨by decide, by decide⟩
      obtain ⟨d', hok, -⟩ := openingGives_ok h hd (.earlier (hfirst ▸ firstVersion_lt) hadmits)
      exact ⟨iff_of_true ⟨d', hok⟩ hknown, fun hunknown ↦ absurd hknown hunknown⟩

/-- **What becomes of a database when it is opened, by its version and what is in it.**

* Above the current version, it is refused with its version, in words with the range of known ones,
  and left as it was.
* Of the current version, it is opened and left as it was.
* Below, it is opened if a history can be set up in it, and then has the current version and the
  tables of a history besides what it had. Otherwise an error of the database is answered, and it is
  left as it was.
* Below the first version, this is the same as if it were of the first version.

So opening goes by the range of known versions exactly for databases that are not below it, except
that one of the first version has to be one that a history can be set up in. -/
theorem openHistory_by_version {c : Contents} (h : b.engine.Reliable v) (hd : v.idle d)
    (hc : v.saved d = c) :
    (currentVersion < c.version →
      b.OpeningGives v d (.error (.unsupportedVersion c.version firstVersion currentVersion)) c ∧
      (HistoryError.unsupportedVersion c.version firstVersion currentVersion).message =
        "Unsupported schema version " ++ toString c.version.toInt ++
          "; supported range is 0..=1") ∧
    (c.version = currentVersion → b.OpeningGives v d (.ok ()) c) ∧
    (c.version < currentVersion →
      (c.AdmitsHistory → b.OpeningGives v d (.ok ()) c.withHistory) ∧
      (¬c.AdmitsHistory → ∃ r, b.OpeningGives v d (.error (.sql r)) c)) ∧
    (c.version < firstVersion →
      ∀ c', Opens c c' ↔ Opens { c with version := firstVersion } c') ∧
    (b.OpensIfKnown v d ↔
      currentVersion ≤ c.version ∨ c.version = firstVersion ∧ c.AdmitsHistory) := by
  subst hc
  refine ⟨fun hlater ↦ ⟨openingGives_of_lt h hd hlater, ?_⟩,
    fun hversion ↦ openingGives_ok h hd (.current hversion), fun hlt ↦ ⟨?_, ?_⟩,
    fun hbelow c' ↦ opens_setVersion hbelow, opensIfKnown_iff h hd⟩
  · exact HistoryError.message_unsupportedVersion _
  · exact fun hadmits ↦ openingGives_ok h hd (.earlier hlt hadmits)
  · exact openingGives_of_not_admits h hd hlt

/-- A database in memory with nothing in it, of a version below the first. -/
def negative : Memory := { saved := { version := -1 } }

/-- A database of a negative version is opened. -/
theorem openHistory_by_version_negative :
    Memory.engine.Reliable Memory.view ∧ Memory.view.idle negative ∧
    Memory.view.saved negative = { version := -1 } ∧ (-1 : Int32) < currentVersion ∧
    ({ version := -1 } : Contents).AdmitsHistory ∧
    (ofEngine Memory.engine).OpeningGives Memory.view negative (.ok ())
      ({ version := -1 } : Contents).withHistory := by
  have hadmits : ({ version := -1 } : Contents).AdmitsHistory :=
    Contents.admitsHistory_iff.2 ⟨rfl, rfl, rfl⟩
  refine ⟨Memory.reliable_engine, rfl, rfl, by decide, hadmits, ?_⟩
  exact ((openHistory_by_version (b := ofEngine Memory.engine) Memory.reliable_engine
    (d := negative) rfl rfl).2.2.1 (by decide)).1 hadmits

/-- **A negative version is opened**, and the current one written over it, though it is not known.
-/
theorem not_opensIfKnown_negative :
    (ofEngine Memory.engine).openHistory negative =
      (.ok (), { saved := ({ version := -1 } : Contents).withHistory }) ∧
    ¬IsKnown (-1) ∧
    ¬∀ d, Memory.view.idle d → (ofEngine Memory.engine).OpensIfKnown Memory.view d := by
  refine ⟨rfl, fun hknown ↦ absurd hknown.1 (by decide), fun hopens ↦ ?_⟩
  obtain hle | ⟨hfirst, -⟩ :=
    (opensIfKnown_iff (b := ofEngine Memory.engine) Memory.reliable_engine (d := negative) rfl).1
      (hopens negative rfl)
  · exact absurd hle (by decide)
  · exact absurd hfirst (by decide)

/-- A table of runs without targets cannot be indexed by them, and the database is left as it was.
-/
example :
    let foreign : Memory := { saved := { objects := [("runs", .foreign ["id", "name"] [])] } }
    (ofEngine Memory.engine).openHistory foreign =
      (.error (.sql ⟨"there can be no index runs_target on runs.target"⟩), foreign) :=
  rfl

end Backend

end History

end MethodFingerprint
