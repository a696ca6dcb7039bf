import MethodFingerprint.Proofs.Document.Codec
import MethodFingerprint.Proofs.History.Transaction

/-!
# What the tables of a history hold

The tables that runs have been put into are a description of these runs under their keys
(`Holds`): one row for each run, one row for each of its fingerprints, and nothing else. Adding a
run adds to the description (`Works.addRun`), and on a reliable engine it succeeds wherever there is
such a description (`Succeeds.addRun`).

While a run is added, its fingerprints come one by one. So the description takes the fingerprints by
themselves, each with the key of its run.
-/

namespace MethodFingerprint

open Database

/-! ### Codecs -/

/-- Settings are read as what they were written for. -/
theorem Settings.readAs?_json (s : Settings) : s.json.readAs? ofDatum = some s := by
  obtain ⟨useReturnType, useParameters, useStrings, useAccessFlags, useOpcodes⟩ := s
  rfl

theorem Settings.isPlain_json (s : Settings) : s.json.IsPlain :=
  Json.isPlain_ofFields (by simp [Json.IsPlain])

theorem RankedFingerprint.readAs?_featuresJson (features : List Feature) :
    (featuresJson features).readAs? readFeatures = some features := by
  have hread : readFeatures (featuresJson features).datum = pure features := by
    rw [readFeatures, featuresJson, Datum.readTexts_ofStrings, pure_bind, List.map_map]
    show (pure (features.map id) : Datum.Reading (List Feature)) = pure features
    rw [List.map_id]
  rw [Json.readAs?, Json.source, Datum.Source.read?, hread]
  rfl

namespace History

/-- The codecs of a history read what they write. -/
structure Backend.Faithful {Db : Type} (b : Backend Db) : Prop where
  settings : b.settings.Faithful
  features : b.features.Faithful

/-- **So do those of JSON texts.** -/
theorem Backend.faithful_ofEngine {Db : Type} (engine : Engine Db) :
    (ofEngine engine).Faithful where
  settings := Codec.faithful_ofJson Settings.isPlain_json Settings.readAs?_json
  features := Codec.faithful_ofJson (fun _ ↦ Json.isPlain_ofStrings _)
    RankedFingerprint.readAs?_featuresJson

variable {Db : Type} {b : Backend Db} {v : View Db} {c c' : Contents}
  {runs : List (Int × Run)} {fingerprints : List (Int × RankedFingerprint)} {id key : Int}
  {r : Run} {f : RankedFingerprint} {settings features : String}

/-! ### Rows -/

/-- A row of runs holds a run under its key. -/
def IsRunRow (b : Backend Db) (run : Int × Run) (row : Row) : Prop :=
  ∃ settings, b.settings.encode run.2.settings = .ok settings ∧
    row = ("id", .integer run.1) :: run.2.cells settings

/-- A row of fingerprints holds a fingerprint of the run with a key. -/
def IsFingerprintRow (b : Backend Db) (f : Int × RankedFingerprint) (row : Row) : Prop :=
  ∃ id features, b.features.encode f.2.features = .ok features ∧
    row = ("id", .integer id) :: f.2.cells f.1 features

theorem IsRunRow.cellOf_id {run : Int × Run} {row : Row} (h : IsRunRow b run row) :
    cellOf row "id" = .integer run.1 := by
  obtain ⟨settings, -, rfl⟩ := h
  rfl

/-- The columns take the cells of a run, -/
theorem takes_cells_run (r : Run) (settings : String) :
    runLayout.takes (r.cells settings) = true := by
  obtain ⟨target, corpusHash, -, strategy, complete, startedAt, finishedAt, -⟩ := r
  cases corpusHash <;> rfl

/-- and those of a fingerprint. -/
theorem takes_cells_fingerprint (run : Int) (f : RankedFingerprint) (features : String) :
    fingerprintLayout.takes (f.cells run features) = true :=
  rfl

/-! ### Tables -/

/-- **What the tables hold**: runs under their keys, all of which the table has had, and
fingerprints with the keys of their runs. -/
structure Holds (b : Backend Db) (c : Contents) (runs : List (Int × Run))
    (fingerprints : List (Int × RankedFingerprint)) : Prop where
  runs : ∃ t, c.object "runs" = some (.table t) ∧ t.layout = runLayout ∧
    List.Forall₂ (IsRunRow b) runs t.rows ∧ ∀ run ∈ runs, run.1 ≤ t.lastKey
  index : ∃ table column, c.object "runs_target" = some (.index table column)
  fingerprints : ∃ t, c.object "fingerprints" = some (.table t) ∧ t.layout = fingerprintLayout ∧
    List.Forall₂ (IsFingerprintRow b) fingerprints t.rows

namespace Holds

/-- **A row of runs adds a run** under a key above all others. -/
theorem insert_run (h : Holds b c runs fingerprints)
    (hencode : b.settings.encode r.settings = .ok settings)
    (hmakes : (Edit.insert "runs" (r.cells settings)).Makes c c' key) :
    Holds b c' (runs ++ [(key, r)]) fingerprints ∧ (∀ run ∈ runs, run.1 < key) ∧
      c'.version = c.version := by
  obtain ⟨t, ht, hlayout, hrows, hle⟩ := h.runs
  obtain ⟨hkey, rfl⟩ := hmakes.of_insert ht (hlayout ▸ takes_cells_run r settings)
  have hlt : ∀ run ∈ runs, run.1 < key := fun run hrun ↦ Int.lt_of_le_of_lt (hle run hrun) hkey
  refine ⟨⟨⟨t.add key (r.cells settings), Contents.object_put_self, hlayout, ?_, ?_⟩, ?_, ?_⟩,
    hlt, rfl⟩
  · refine List.rel_append hrows (.cons ⟨settings, hencode, ?_⟩ .nil)
    rw [hlayout]
    rfl
  · intro run hrun
    show run.1 ≤ key
    obtain hrun | hrun := List.mem_append.1 hrun
    · exact Int.le_of_lt (hlt run hrun)
    · exact Int.le_of_eq (congrArg Prod.fst (List.mem_singleton.1 hrun))
  · rw [Contents.object_put_of_ne (by decide)]
    exact h.index
  · rw [Contents.object_put_of_ne (by decide)]
    exact h.fingerprints

/-- **A row of fingerprints adds a fingerprint.** -/
theorem insert_fingerprint (h : Holds b c runs fingerprints)
    (hencode : b.features.encode f.features = .ok features)
    (hmakes : (Edit.insert "fingerprints" (f.cells id features)).Makes c c' key) :
    Holds b c' runs (fingerprints ++ [(id, f)]) ∧ c'.version = c.version := by
  obtain ⟨t, ht, hlayout, hrows⟩ := h.fingerprints
  obtain ⟨-, rfl⟩ := hmakes.of_insert ht (hlayout ▸ takes_cells_fingerprint id f features)
  refine ⟨⟨?_, ?_, t.add key (f.cells id features), Contents.object_put_self, hlayout, ?_⟩, rfl⟩
  · rw [Contents.object_put_of_ne (by decide)]
    exact h.runs
  · rw [Contents.object_put_of_ne (by decide)]
    exact h.index
  · refine List.rel_append hrows (.cons ⟨key, features, hencode, ?_⟩ .nil)
    rw [hlayout]
    rfl

/-- A row of runs can be added. -/
theorem isPossible_run (h : Holds b c runs fingerprints) (r : Run) (settings : String) :
    (Edit.insert "runs" (r.cells settings)).IsPossible c := by
  obtain ⟨t, ht, hlayout, -, -⟩ := h.runs
  refine ⟨t, ht, ?_, ?_⟩
  · rw [hlayout]
    exact takes_cells_run r settings
  · rw [hlayout]
    rfl

/-- The keys of the runs are those of their rows. -/
theorem keys_eq {rows : List Row} (h : List.Forall₂ (IsRunRow b) runs rows) :
    rows.map (cellOf · "id") = runs.map fun run ↦ .integer run.1 := by
  have hkeys : List.Forall₂ (fun run row ↦ Cell.integer run.1 = cellOf row "id") runs rows :=
    h.imp fun _ _ hrow ↦ hrow.cellOf_id.symm
  exact (map_eq_map_of_forall₂ hkeys).symm

/-- A row of fingerprints can be added if its run is there. -/
theorem isPossible_fingerprint (h : Holds b c runs fingerprints) (hid : id ∈ runs.map (·.1))
    (f : RankedFingerprint) (features : String) :
    (Edit.insert "fingerprints" (f.cells id features)).IsPossible c := by
  obtain ⟨t, ht, hlayout, -⟩ := h.fingerprints
  refine ⟨t, ht, ?_, ?_⟩
  · rw [hlayout]
    rfl
  · obtain ⟨t', ht', hlayout', hrows, -⟩ := h.runs
    obtain ⟨run, hrun, rfl⟩ := List.mem_map.1 hid
    have hkeys : Cell.integer run.1 ∈ t'.rows.map (cellOf · "id") := by
      rw [keys_eq hrows]
      exact List.mem_map_of_mem hrun
    obtain ⟨row, hrow, hcell⟩ := List.mem_map.1 hkeys
    rw [hlayout]
    simpa [Contents.hasReferences, fingerprintLayout, ht', hlayout', runLayout,
      RankedFingerprint.cells, cellOf] using ⟨row, hrow, hcell⟩

/-- A row of fingerprints can be got ready for. -/
theorem exists_prepare (h : Holds b c runs fingerprints) : ∃ t,
    c.object "fingerprints" = some (.table t) ∧
    ∀ column ∈ RankedFingerprint.columns, (t.layout.kind? column).isSome := by
  obtain ⟨t, ht, hlayout, -⟩ := h.fingerprints
  refine ⟨t, ht, ?_⟩
  rw [hlayout]
  decide

end Holds

/-! ### Adding a run -/

/-- Adding a fingerprint of the run with a key. -/
def AddsFingerprint (b : Backend Db) (id : Int) (f : RankedFingerprint) (c c' : Contents) : Prop :=
  ∀ {runs fingerprints}, Holds b c runs fingerprints →
    Holds b c' runs (fingerprints ++ [(id, f)]) ∧ c'.version = c.version

theorem Works.addFingerprint (h : b.engine.Lawful v) (id : Int) (f : RankedFingerprint) :
    Works v (b.addFingerprint id f) fun c _ c' ↦ AddsFingerprint b id f c c' := by
  refine ((Works.encode b.features f.features).bind fun features ↦
    Works.edit h (.insert "fingerprints" (f.cells id features))).mono ?_
  rintro c ⟨⟩ c' ⟨features, _, ⟨hencode, rfl⟩, key, hmakes⟩ runs fingerprints hholds
  exact hholds.insert_fingerprint hencode hmakes

/-- Fingerprints are added one after another. By induction on the list. -/
theorem Holds.steps {l : List RankedFingerprint} (h : Holds b c runs fingerprints)
    (hsteps : Steps (AddsFingerprint b id) l c c') :
    Holds b c' runs (fingerprints ++ l.map (id, ·)) ∧ c'.version = c.version := by
  induction l generalizing c fingerprints with
  | nil =>
    obtain rfl := hsteps
    exact ⟨by simpa using h, rfl⟩
  | cons f l ih =>
    obtain ⟨c₁, hadds, hrest⟩ := hsteps
    obtain ⟨h₁, hversion₁⟩ := hadds h
    obtain ⟨h', hversion'⟩ := ih h₁ hrest
    rw [List.append_assoc] at h'
    exact ⟨h', hversion'.trans hversion₁⟩

/-- Adding a run: there is something that its row is added to, and if that holds runs, then it holds
this one besides, with its fingerprints and under a key above all others. -/
structure AddsRun (b : Backend Db) (r : Run) (c : Contents) (id : Int) (c' : Contents) : Prop where
  exists_object : ∃ o, c.object "runs" = some o
  holds {runs : List (Int × Run)} {fingerprints : List (Int × RankedFingerprint)} :
    Holds b c runs fingerprints →
      Holds b c' (runs ++ [(id, r)]) (fingerprints ++ r.fingerprints.map (id, ·)) ∧
      (∀ run ∈ runs, run.1 < id) ∧ c'.version = c.version

/-- **Adding a run adds it to what the tables hold.** -/
theorem Works.addRun (h : b.engine.Lawful v) (r : Run) :
    Works v (b.addRun r) (AddsRun b r) := by
  have hfingerprints (id : Int) :=
    (Works.forM (fun f ↦ Works.addFingerprint h id f) r.fingerprints).bind fun _ ↦ Works.pure id
  refine ((Works.encode b.settings r.settings).bind fun settings ↦
    (Works.insertRow h "runs" (r.cells settings)).bind fun id ↦
      (Works.prepare b "fingerprints" RankedFingerprint.columns).bind fun _ ↦
        hfingerprints id).mono ?_
  rintro c _ c' ⟨settings, _, ⟨hencode, rfl⟩, id, c₁, hmakes, ⟨⟩, _, rfl, ⟨⟩, _, hsteps, rfl, rfl⟩
  refine ⟨hmakes.exists_object, fun hholds ↦ ?_⟩
  obtain ⟨h₁, hlt, hversion₁⟩ := hholds.insert_run hencode hmakes
  obtain ⟨h', hversion'⟩ := h₁.steps hsteps
  exact ⟨h', hlt, hversion'.trans hversion₁⟩

/-! ### Being able to add a run -/

/-- The run with a key is there. -/
def HasRun (b : Backend Db) (id : Int) (c : Contents) : Prop :=
  ∃ runs fingerprints, Holds b c runs fingerprints ∧ id ∈ runs.map (·.1)

theorem Succeeds.addFingerprint (h : b.engine.Reliable v) (hb : b.Faithful) (id : Int)
    (f : RankedFingerprint) : Succeeds v (b.addFingerprint id f) (HasRun b id) := by
  obtain ⟨features, hencode, -⟩ := hb.features f.features
  refine (Succeeds.encode hencode).bind (Works.encode b.features f.features)
    (fun features ↦ Succeeds.edit h (.insert "fingerprints" (f.cells id features))) ?_
  rintro c features _ ⟨runs, fingerprints, hholds, hid⟩ ⟨-, rfl⟩
  exact hholds.isPossible_fingerprint hid f features

/-- One fingerprint after another can be added. By induction on the list. -/
theorem HasRun.canStep (h : HasRun b id c) (l : List RankedFingerprint) :
    CanStep (fun _ ↦ HasRun b id) (AddsFingerprint b id) l c := by
  induction l generalizing c with
  | nil => trivial
  | cons f l ih =>
    refine ⟨h, fun c₁ hadds ↦ ih ?_⟩
    obtain ⟨runs, fingerprints, hholds, hid⟩ := h
    exact ⟨runs, _, (hadds hholds).1, hid⟩

/-- The fingerprints of a run that is there can be added. -/
theorem Succeeds.addFingerprints (h : b.engine.Reliable v) (hb : b.Faithful) (id : Int)
    (l : List RankedFingerprint) :
    Succeeds v (do
      b.prepare "fingerprints" RankedFingerprint.columns
      l.forM (b.addFingerprint id)
      return id) (HasRun b id) := by
  have hworks := fun f ↦ Works.addFingerprint h.toLawful id f
  have hprepare : Succeeds v (b.prepare "fingerprints" RankedFingerprint.columns) (HasRun b id) :=
    (Succeeds.prepare h _ _).mono fun _ ⟨_, _, hholds, _⟩ ↦ hholds.exists_prepare
  have hadd : Succeeds v (l.forM (b.addFingerprint id)) (HasRun b id) :=
    (Succeeds.forM (fun f ↦ Succeeds.addFingerprint h hb id f) hworks l).mono
      fun _ hrun ↦ hrun.canStep l
  have hanswer : Succeeds v (do l.forM (b.addFingerprint id); return id) (HasRun b id) :=
    hadd.bind (Works.forM hworks l) (fun _ ↦ Succeeds.pure id) fun _ _ _ _ _ ↦ trivial
  refine hprepare.bind (Works.prepare b _ _) (fun _ ↦ hanswer) ?_
  rintro c _ _ hrun rfl
  exact hrun

/-- **A reliable engine adds a run to what the tables hold.** -/
theorem Succeeds.addRun (h : b.engine.Reliable v) (hb : b.Faithful) (r : Run) :
    Succeeds v (b.addRun r) fun c ↦ ∃ runs fingerprints, Holds b c runs fingerprints := by
  obtain ⟨settings, hencode, -⟩ := hb.settings r.settings
  have hinsert (settings : String) : Succeeds v (do
      let id ← b.insertRow "runs" (r.cells settings)
      b.prepare "fingerprints" RankedFingerprint.columns
      r.fingerprints.forM (b.addFingerprint id)
      return id) fun c ↦ b.settings.encode r.settings = .ok settings ∧
        ∃ runs fingerprints, Holds b c runs fingerprints := by
    refine ((Succeeds.insertRow h _ _).mono ?_).bind (Works.insertRow h.toLawful _ _)
      (fun id ↦ Succeeds.addFingerprints h hb id r.fingerprints) ?_
    · rintro c ⟨-, runs, fingerprints, hholds⟩
      exact hholds.isPossible_run r settings
    · rintro c id c' ⟨hencode, runs, fingerprints, hholds⟩ hmakes
      exact ⟨_, fingerprints, (hholds.insert_run hencode hmakes).1, by simp⟩
  refine (Succeeds.encode hencode).bind (Works.encode _ _) hinsert ?_
  rintro c settings _ hholds ⟨hencode, rfl⟩
  exact ⟨hencode, hholds⟩

end History

end MethodFingerprint
