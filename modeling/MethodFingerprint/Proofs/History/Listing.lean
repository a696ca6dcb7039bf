import MethodFingerprint.Proofs.History.Tables
import Mathlib.Data.List.Nodup
import Mathlib.Data.List.Perm.Basic

/-!
# Listing what the tables of a history hold

What is listed depends on nothing but the description of the tables: every run is put together from
rows that belong to it alone, since no two runs have the same key (`Keeps.list_eq`).

A database answers rows in any order in which the numbers that they are sorted by do not fall. The
keys of runs are distinct, and so are the ranks within a run, so that there is only one such order:
runs come in the order of their keys, and each has its fingerprints sorted by their signed ranks
(`Run.recalled`).
-/

namespace MethodFingerprint

open Database

/-! ### Sorting by distinct numbers -/

/-- **There is one way to sort by distinct numbers.** -/
theorem eq_of_perm_of_pairwise {α : Type} {n : α → Int} {l l' : List α} (hperm : l'.Perm l)
    (hl : l.Pairwise fun a b ↦ n a < n b) (hl' : l'.Pairwise fun a b ↦ n a ≤ n b) : l' = l := by
  have hdistinct : (l.map n).Nodup :=
    List.pairwise_map.2 (hl.imp fun hlt ↦ Int.ne_of_lt hlt)
  refine List.Perm.eq_of_pairwise (fun a b ha hb hab hba ↦ ?_) hl' (hl.imp Int.le_of_lt) hperm
  exact List.inj_on_of_nodup_map hdistinct (hperm.subset ha) hb (Int.le_antisymm hab hba)

/-- **What is answered, by what the rows stand for**: the rows that are picked stand for some
members of a list, and what is answered stands for these, sorted by their numbers. -/
theorem Database.Select.IsAnswer.exists_perm {α : Type} {s : Select} {rows : List Row}
    {answer : List (List Cell)} {R : α → Row → Prop} {p : α → Bool} {n : α → Int} {l : List α}
    (h : s.IsAnswer rows answer) (hrows : List.Forall₂ R l rows)
    (hpicks : ∀ a row, R a row → s.picks row = p a)
    (horder : ∀ a row, R a row → cellOf row s.orderBy = .integer (n a)) :
    ∃ l', l'.Perm (l.filter p) ∧ l'.Pairwise (fun a b ↦ n a ≤ n b) ∧
      List.Forall₂ (fun a cells ↦ ∃ row, R a row ∧ cells = s.columns.map (cellOf row))
        l' answer := by
  obtain ⟨picked, hperm, hsorted, rfl⟩ := h
  have hfilter : List.Forall₂ R (l.filter p) (rows.filter s.picks) :=
    List.rel_filter (fun a row hR ↦ by simp only [hpicks a row hR]) hrows
  obtain ⟨l', hpicked, hperm'⟩ :=
    List.perm_comp_forall₂ hperm (List.Forall₂.flip (R := flip R) hfilter)
  have hpicked : List.Forall₂ R l' picked := hpicked.flip
  refine ⟨l', hperm', ?_, ?_⟩
  · have hcells : l'.map (fun a ↦ Cell.integer (n a)) = picked.map (cellOf · s.orderBy) :=
      map_eq_map_of_forall₂ (hpicked.imp fun a row hR ↦ (horder a row hR).symm)
    have hordered : (picked.map (cellOf · s.orderBy)).Pairwise fun x y ↦
        ∀ m n, x = .integer m → y = .integer n → m ≤ n := List.pairwise_map.2 hsorted
    rw [← hcells] at hordered
    exact (List.pairwise_map.1 hordered).imp fun hle ↦ hle _ _ rfl rfl
  · exact List.forall₂_map_right_iff.2 (hpicked.imp fun a row hR ↦ ⟨row, hR, rfl⟩)

/-! ### Runs as they come back -/

namespace RankedFingerprint

/-- Whether a fingerprint may stand before another in the order of the signed ranks. -/
def notAfter (a b : RankedFingerprint) : Bool := a.rank.toInt64 ≤ b.rank.toInt64

theorem notAfter_iff {a b : RankedFingerprint} :
    a.notAfter b = true ↔ a.rank.toInt64.toInt ≤ b.rank.toInt64.toInt := by
  rw [notAfter, decide_eq_true_eq, Int64.le_iff_toInt_le]

theorem notAfter_trans (a b c : RankedFingerprint) (hab : a.notAfter b = true)
    (hbc : b.notAfter c = true) : a.notAfter c = true := by
  rw [notAfter_iff] at *
  omega

theorem notAfter_total (a b : RankedFingerprint) : (a.notAfter b || b.notAfter a) = true := by
  rw [Bool.or_eq_true, notAfter_iff, notAfter_iff]
  omega

/-- A rank is read from the signed number that it is kept as. -/
theorem toUInt64_ofInt_toInt (rank : UInt64) :
    (Int64.ofInt rank.toInt64.toInt).toUInt64 = rank := by
  rw [Int64.ofInt_toInt, UInt64.toUInt64_toInt64]

/-- Distinct ranks are distinct as signed numbers. -/
theorem toInt_toInt64_inj {a b : UInt64} (h : a.toInt64.toInt = b.toInt64.toInt) : a = b := by
  rw [← toUInt64_ofInt_toInt a, h, toUInt64_ofInt_toInt]

end RankedFingerprint

namespace Run

/-- A run as it comes back: its fingerprints are sorted by their signed ranks. -/
def recalled (r : Run) : Run :=
  { r with fingerprints := r.fingerprints.mergeSort RankedFingerprint.notAfter }

/-- A run comes back as another one: nothing is changed but the order of the fingerprints, which is
the rising order of their ranks as signed words. -/
structure ComesBackAs (r r' : Run) : Prop where
  eq_except : r' = { r with fingerprints := r'.fingerprints }
  perm : r'.fingerprints.Perm r.fingerprints
  ascending : r'.fingerprints.Pairwise fun a b ↦ a.rank.toInt64 < b.rank.toInt64

/-- **Distinct ranks are strictly sorted when a run comes back.** -/
theorem comesBackAs_recalled {r : Run} (h : (r.fingerprints.map (·.rank)).Nodup) :
    r.ComesBackAs r.recalled where
  eq_except := rfl
  perm := List.mergeSort_perm _ _
  ascending := by
    have hsorted := List.pairwise_mergeSort RankedFingerprint.notAfter_trans
      RankedFingerprint.notAfter_total r.fingerprints
    have hdistinct : r.recalled.fingerprints.Pairwise fun a b ↦ a.rank ≠ b.rank :=
      List.pairwise_map.1 (((List.mergeSort_perm _ _).map _).nodup_iff.2 h)
    refine hsorted.imp₂ (fun a b hle hne ↦ ?_) hdistinct
    have hne' : a.rank.toInt64.toInt ≠ b.rank.toInt64.toInt :=
      fun heq ↦ hne (RankedFingerprint.toInt_toInt64_inj heq)
    rw [RankedFingerprint.notAfter_iff] at hle
    rw [Int64.lt_iff_toInt_lt]
    omega

end Run

namespace History

variable {Db : Type} {b : Backend Db} {v : View Db} {d : Db} {c : Contents}
  {runs : List (Int × Run)} {run : Int × Run}

/-! ### Reading rows -/

/-- **A fingerprint is read from its row**, with its rank. -/
theorem IsFingerprintRow.fingerprintOfCells (hb : b.Faithful) {f : Int × RankedFingerprint}
    {row : Row} (h : IsFingerprintRow b f row) (id : Int) :
    fingerprintOfCells b.features ((fingerprintQuery id).columns.map (cellOf row)) = .ok f.2 := by
  obtain ⟨key, features, hencode, rfl⟩ := h
  show (((b.features.decode features).mapError HistoryError.json) >>= fun tokens ↦
    .ok ⟨(Int64.ofInt f.2.rank.toInt64.toInt).toUInt64, tokens, f.2.pattern⟩) = .ok f.2
  rw [hb.features.decode_eq_ok hencode, RankedFingerprint.toUInt64_ofInt_toInt]
  rfl

theorem IsFingerprintRow.picks {f : Int × RankedFingerprint} {row : Row}
    (h : IsFingerprintRow b f row) (id : Int) :
    (fingerprintQuery id).picks row = decide (f.1 = id) := by
  obtain ⟨key, features, -, rfl⟩ := h
  exact decide_eq_decide.2 ⟨Cell.integer.inj, congrArg Cell.integer⟩

theorem IsFingerprintRow.cellOf_rank {f : Int × RankedFingerprint} {row : Row}
    (h : IsFingerprintRow b f row) : cellOf row "rank" = .integer f.2.rank.toInt64.toInt := by
  obtain ⟨key, features, -, rfl⟩ := h
  rfl

theorem IsRunRow.picks {row : Row} (h : IsRunRow b run row) (target : Option MethodId) :
    (runQuery target).picks row = target.all (run.2.target = ·) := by
  obtain ⟨settings, -, rfl⟩ := h
  cases target with
  | none => rfl
  | some m =>
    refine decide_eq_decide.2 ⟨fun heq ↦ ?_, fun heq ↦ ?_⟩
    · exact congrArg MethodId.mk (Cell.text.inj heq)
    · exact congrArg (Cell.text ∘ MethodId.text) heq

/-- The heading of a run, with its settings as a text. -/
def Heading.ofRun (id : Int) (r : Run) (settings : String) : Heading where
  id := id
  target := r.target.text
  corpusHash := r.corpusHash
  settings := settings
  strategy := r.strategy.name
  complete := if r.complete then 1 else 0
  startedAt := r.startedAt
  finishedAt := r.finishedAt

/-- **A heading is read from its row.** -/
theorem Heading.ofCells_cells (id : Int) (r : Run) (settings : String) (target : Option MethodId) :
    Heading.ofCells ((runQuery target).columns.map
      (cellOf (("id", .integer id) :: r.cells settings))) = .ok (.ofRun id r settings) := by
  show Heading.ofCells [.integer id, .text r.target.text, .ofOption r.corpusHash, .text settings,
    .text r.strategy.name, .ofBool r.complete, .text r.startedAt, .text r.finishedAt] = _
  simp only [ofCells, Cell.optionalText?_ofOption]
  rfl

/-- A heading is that of a run under its key. -/
def IsHeading (b : Backend Db) (run : Int × Run) (heading : Heading) : Prop :=
  ∃ settings, b.settings.encode run.2.settings = .ok settings ∧
    heading = .ofRun run.1 run.2 settings

/-! ### What is kept -/

/-- The fingerprints of a run, with its key. -/
def fingerprintsIn (run : Int × Run) : List (Int × RankedFingerprint) :=
  run.2.fingerprints.map (run.1, ·)

theorem filter_fingerprintsIn_self (run : Int × Run) :
    (fingerprintsIn run).filter (·.1 = run.1) = fingerprintsIn run :=
  List.filter_eq_self.2 (List.forall_mem_map.2 fun _ _ ↦ decide_eq_true rfl)

theorem filter_fingerprintsIn_of_ne {id : Int} (h : run.1 ≠ id) :
    (fingerprintsIn run).filter (·.1 = id) = [] :=
  List.filter_eq_nil_iff.2 (List.forall_mem_map.2 fun _ _ heq ↦ h (of_decide_eq_true heq))

/-- **Runs do not mix**: under different keys, each finds its own fingerprints. -/
theorem filter_flatMap_fingerprintsIn (hruns : (runs.map (·.1)).Nodup) (hrun : run ∈ runs) :
    (runs.flatMap fingerprintsIn).filter (·.1 = run.1) = fingerprintsIn run := by
  induction runs with
  | nil => nomatch hrun
  | cons other runs ih =>
    rw [List.map_cons, List.nodup_cons] at hruns
    rw [List.flatMap_cons, List.filter_append]
    obtain rfl | hrun := List.mem_cons.1 hrun
    · have hrest : (runs.flatMap fingerprintsIn).filter (·.1 = run.1) = [] := by
        rw [List.filter_flatMap, List.flatMap_eq_nil_iff]
        intro later hlater
        refine filter_fingerprintsIn_of_ne fun heq ↦ hruns.1 ?_
        exact heq ▸ List.mem_map_of_mem hlater
      rw [filter_fingerprintsIn_self, hrest, List.append_nil]
    · have hother : other.1 ≠ run.1 := fun heq ↦ hruns.1 (heq ▸ List.mem_map_of_mem hrun)
      rw [filter_fingerprintsIn_of_ne hother, List.nil_append, ih hruns.2 hrun]

/-- The runs with a target, or all runs. -/
def runsWith (target : Option MethodId) (runs : List (Int × Run)) : List (Int × Run) :=
  runs.filter fun run ↦ target.all (run.2.target = ·)

/-- **The tables hold runs under rising keys**, with their fingerprints and nothing else. -/
structure Keeps (b : Backend Db) (c : Contents) (runs : List (Int × Run)) : Prop where
  holds : Holds b c runs (runs.flatMap fingerprintsIn)
  ascending : (runs.map (·.1)).Pairwise (· < ·)

namespace Keeps

theorem nodup (h : Keeps b c runs) : (runs.map (·.1)).Nodup :=
  h.ascending.imp fun hlt ↦ Int.ne_of_lt hlt

/-- **A run finds its fingerprints**, sorted. -/
theorem fingerprintsOf_eq (h : Keeps b (v.seen d) runs) (he : b.engine.Reliable v)
    (hb : b.Faithful) (hrun : run ∈ runs) (hranks : (run.2.fingerprints.map (·.rank)).Nodup) :
    b.fingerprintsOf run.1 d = .ok run.2.recalled.fingerprints := by
  obtain ⟨t, ht, hlayout, hrows⟩ := h.holds.fingerprints
  have hfits : (fingerprintQuery run.1).fits t.layout = true := by
    rw [hlayout]
    rfl
  obtain ⟨answer, hanswer⟩ := he.exists_select d (fingerprintQuery run.1) t ht hfits
  obtain ⟨l, hperm, hsorted, hcells⟩ :=
    (he.select hanswer ht hfits).exists_perm hrows (fun _ _ hrow ↦ hrow.picks run.1)
      fun _ _ hrow ↦ hrow.cellOf_rank
  rw [filter_flatMap_fingerprintsIn h.nodup hrun] at hperm
  have hfingerprints : (l.map (·.2)).Perm run.2.fingerprints := by
    have hmap : (fingerprintsIn run).map (·.2) = run.2.fingerprints := by
      rw [fingerprintsIn, List.map_map]
      exact List.map_id _
    exact hmap ▸ hperm.map _
  have hl : l.map (·.2) = run.2.recalled.fingerprints := by
    have hrecalled := Run.comesBackAs_recalled hranks
    exact eq_of_perm_of_pairwise (n := fun f ↦ f.rank.toInt64.toInt)
      (hfingerprints.trans hrecalled.perm.symm)
      (hrecalled.ascending.imp Int64.lt_iff_toInt_lt.1) (List.pairwise_map.2 hsorted)
  have hread : answer.mapM (fingerprintOfCells b.features) = .ok (l.map (·.2)) := by
    refine mapM_eq_pure_of_forall₂ (List.forall₂_map_left_iff.2 (hcells.imp ?_))
    rintro f _ ⟨row, hrow, rfl⟩
    exact hrow.fingerprintOfCells hb run.1
  rw [Backend.fingerprintsOf, Backend.select, hanswer]
  exact hl ▸ hread

/-- A run is put together from its heading and its fingerprints. -/
theorem runOf_eq (h : Keeps b (v.seen d) runs) (he : b.engine.Reliable v) (hb : b.Faithful)
    (hrun : run ∈ runs) (hranks : (run.2.fingerprints.map (·.rank)).Nodup) {heading : Heading}
    (hheading : IsHeading b run heading) : b.runOf heading d = .ok run.2.recalled := by
  obtain ⟨settings, hsettings, rfl⟩ := hheading
  have hcomplete : ((if run.2.complete then 1 else 0 : Int) != 0) = run.2.complete := by
    cases run.2.complete <;> rfl
  simp only [Backend.runOf, Heading.ofRun, hb.settings.decode_eq_ok hsettings,
    h.fingerprintsOf_eq he hb hrun hranks, Strategy.ofName_name, hcomplete]
  rfl

/-- The rows of runs with a target, or of all runs, come in the order of their keys. -/
theorem exists_headings (h : Keeps b (v.seen d) runs) (he : b.engine.Reliable v)
    (target : Option MethodId) : ∃ answer headings,
      b.select (runQuery target) d = .ok answer ∧ answer.mapM Heading.ofCells = .ok headings ∧
      List.Forall₂ (IsHeading b) (runsWith target runs) headings := by
  obtain ⟨t, ht, hlayout, hrows, -⟩ := h.holds.runs
  have hfits : (runQuery target).fits t.layout = true := by
    rw [hlayout]
    cases target <;> rfl
  obtain ⟨answer, hanswer⟩ := he.exists_select d (runQuery target) t ht hfits
  obtain ⟨l, hperm, hsorted, hcells⟩ :=
    (he.select hanswer ht hfits).exists_perm hrows (fun _ _ hrow ↦ hrow.picks target)
      fun _ _ hrow ↦ hrow.cellOf_id
  have hl : l = runsWith target runs :=
    eq_of_perm_of_pairwise (n := fun run ↦ run.1) hperm
      ((List.pairwise_map.1 h.ascending).filter _) hsorted
  subst hl
  have hheading : List.Forall₂ (fun run cells ↦ ∃ heading, Heading.ofCells cells = .ok heading ∧
      IsHeading b run heading) (runsWith target runs) answer := by
    refine hcells.imp ?_
    rintro run _ ⟨_, ⟨settings, hencode, rfl⟩, rfl⟩
    exact ⟨_, Heading.ofCells_cells run.1 run.2 settings target, settings, hencode, rfl⟩
  obtain ⟨headings, hheadings, hread⟩ := exists_mapM_eq_pure_of_forall₂ hheading
  exact ⟨answer, headings, by rw [Backend.select, hanswer]; rfl, hread, hheadings⟩

/-- **Listing gives back the runs** with a target, or all runs, in the order of their keys. -/
theorem list_eq (h : Keeps b (v.seen d) runs) (he : b.engine.Reliable v) (hb : b.Faithful)
    (hranks : ∀ run ∈ runs, (run.2.fingerprints.map (·.rank)).Nodup) (target : Option MethodId) :
    b.list target d = .ok ((runsWith target runs).map (·.2.recalled)) := by
  obtain ⟨answer, headings, hanswer, hread, hheadings⟩ := h.exists_headings he target
  have hruns : headings.mapM (fun heading ↦ b.runOf heading d) =
      .ok ((runsWith target runs).map (·.2.recalled)) := by
    have hmem : ∀ run ∈ runsWith target runs, run ∈ runs :=
      fun run hrun ↦ (List.mem_filter.1 hrun).1
    have hheadings' := (List.forall₂_and_left _ _).2 ⟨hmem, hheadings⟩
    refine mapM_eq_pure_of_forall₂ (List.forall₂_map_left_iff.2 (hheadings'.imp ?_))
    exact fun run heading ⟨hrun, hheading⟩ ↦ h.runOf_eq he hb hrun (hranks run hrun) hheading
  rw [Backend.list, hanswer]
  show (answer.mapM Heading.ofCells >>= _) = _
  rw [hread]
  exact hruns

end Keeps

end History

end MethodFingerprint
