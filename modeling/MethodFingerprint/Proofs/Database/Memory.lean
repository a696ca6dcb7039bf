import MethodFingerprint.Database.Memory
import MethodFingerprint.Proofs.Database.Laws
import Mathlib.Tactic.Cases

/-!
# Databases in memory keep the laws

What is seen of a database in memory, and what of it is saved, can be read off it (`Memory.view`).
Under this view, its engine keeps to what is documented of engines and does whatever the contents
allow (`Memory.reliable_engine`).
-/

namespace MethodFingerprint.Database

/-! ### Sorting -/

theorem isNotAfter_iff {column : String} {a b : Row} : isNotAfter column a b = true ↔
    (cellOf a column).rank < (cellOf b column).rank ∨
      (cellOf a column).rank = (cellOf b column).rank ∧
        (cellOf a column).number ≤ (cellOf b column).number := by
  simp [isNotAfter]

theorem isNotAfter_total (column : String) (a b : Row) :
    (isNotAfter column a b || isNotAfter column b a) = true := by
  rw [Bool.or_eq_true, isNotAfter_iff, isNotAfter_iff]
  omega

theorem isNotAfter_trans (column : String) (a b c : Row) (hab : isNotAfter column a b = true)
    (hbc : isNotAfter column b c = true) : isNotAfter column a c = true := by
  rw [isNotAfter_iff] at *
  omega

namespace Memory

variable {m m' : Memory} {x : Edit}

/-- What a database in memory holds. -/
def view : View Memory where
  seen := seen
  saved := saved
  idle m := m.working = none

theorem seen_replace (m : Memory) (c : Contents) : (m.replace c).seen = c := by
  unfold replace seen
  cases m.working <;> rfl

theorem working_replace_eq_none (m : Memory) (c : Contents) :
    (m.replace c).working = none ↔ m.working = none := by
  unfold replace
  cases m.working <;> simp

theorem saved_replace (h : m.working ≠ none) (c : Contents) : (m.replace c).saved = m.saved := by
  unfold replace
  cases hw : m.working with
  | none => exact absurd hw h
  | some _ => rfl

/-- **What becomes of a database by an edit**: other contents are seen, those that the edit is to
make, and nothing else becomes of it but the last key. -/
theorem edit_eq_ok (h : m.edit x = .ok m') :
    x.Makes m.seen m'.seen m'.lastKey ∧ (m'.working = none ↔ m.working = none) ∧
      (m.working ≠ none → m'.saved = m.saved) := by
  cases x with
  | createTable name layout =>
    rw [edit] at h
    split at h
    · rename_i htakes
      obtain rfl := Except.ok.inj h
      rw [seen_replace]
      exact ⟨.createTable layout htakes, working_replace_eq_none m _, fun hw ↦ saved_replace hw _⟩
    · cases h
  | createIndex name table column =>
    rw [edit] at h
    split at h
    · rename_i htakes
      obtain rfl := Except.ok.inj h
      rw [seen_replace]
      exact ⟨.createIndex htakes, working_replace_eq_none m _, fun hw ↦ saved_replace hw _⟩
    · cases h
  | setVersion version =>
    obtain rfl := Except.ok.inj h
    rw [seen_replace]
    exact ⟨.setVersion version, working_replace_eq_none m _, fun hw ↦ saved_replace hw _⟩
  | insert name values =>
    rw [edit] at h
    split at h
    · rename_i t ht
      split at h
      · rename_i htakes
        obtain rfl := Except.ok.inj h
        have hseen : (m.insert name t values).seen =
            m.seen.put name (.table (t.add (t.lastKey + 1) values)) :=
          seen_replace m _
        rw [hseen]
        exact ⟨.insert ht (Bool.and_eq_true_iff.1 htakes).1 (Int.lt_succ t.lastKey),
          working_replace_eq_none m _, fun hw ↦ saved_replace hw _⟩
      · cases h
    · cases h

/-- **An edit that the contents allow is carried out.** -/
theorem exists_edit_eq_ok (h : x.IsPossible m.seen) : ∃ m', m.edit x = .ok m' := by
  cases x with
  | createTable name layout => exact ⟨_, if_pos h.2.2⟩
  | createIndex name table column => exact ⟨_, if_pos h.2⟩
  | setVersion version => exact ⟨_, rfl⟩
  | insert name values =>
    obtain ⟨t, ht, htakes, hreferences⟩ := h
    refine ⟨m.insert name t values, ?_⟩
    simp only [edit, ht]
    exact if_pos (Bool.and_eq_true_iff.2 ⟨htakes, hreferences⟩)

/-- A statement that fails changes nothing. -/
theorem eq_of_execute_eq_error {s : Statement} {e : SqlError}
    (h : execute s m = (.error e, m')) : m' = m := by
  cases s <;> simp only [execute] at h <;> split at h <;> cases h <;> rfl

theorem execute_edit_eq_ok_iff :
    execute (.edit x) m = (.ok (), m') ↔ m.edit x = .ok m' := by
  simp only [execute]
  cases m.edit x <;> simp

/-- **The rows that are picked are answered, sorted.** -/
theorem isAnswer_of_select {s : Select} {t : Table} {answer : List (List Cell)}
    (h : select s m = .ok answer) (ht : m.seen.object s.table = some (.table t)) :
    s.IsAnswer t.rows answer := by
  simp only [select, ht] at h
  split at h
  · have hsorted := List.pairwise_mergeSort (isNotAfter_trans s.orderBy)
      (isNotAfter_total s.orderBy) (t.rows.filter s.picks)
    obtain rfl := Except.ok.inj h
    refine ⟨_, List.mergeSort_perm _ _, hsorted.imp fun hab p n hp hn ↦ ?_, rfl⟩
    rw [isNotAfter_iff, hp, hn] at hab
    exact hab.elim (absurd · (Nat.lt_irrefl _)) And.right
  · cases h

/-- **The engine in memory does what the contents allow, and as it is documented.** -/
theorem reliable_engine : engine.Reliable view where
  seen_eq_saved {m} h := by
    show m.working.getD m.saved = m.saved
    rw [show m.working = none from h]
    rfl
  connect h := by
    obtain rfl := Except.ok.inj h
    exact ⟨rfl, rfl⟩
  version h := (Except.ok.inj h).symm
  begin {m m'} h := by
    simp only [engine, execute] at h
    split at h
    · rename_i hw
      cases h
      refine ⟨fun hidle ↦ (nomatch hidle), rfl, ?_⟩
      show m.saved = m.working.getD m.saved
      rw [hw]
      rfl
    · cases h
  commit {m m'} h := by
    simp only [engine, execute] at h
    split at h
    · cases h
    · rename_i c hw
      cases h
      refine ⟨rfl, ?_⟩
      show c = m.working.getD m.saved
      rw [hw]
      rfl
  edit h := (edit_eq_ok (execute_edit_eq_ok_iff.1 h)).1
  idle_of_edit h := (edit_eq_ok (execute_edit_eq_ok_iff.1 h)).2.1
  saved_of_edit h := (edit_eq_ok (execute_edit_eq_ok_iff.1 h)).2.2
  saved_of_error h := by rw [eq_of_execute_eq_error h]
  idle_of_error h hidle := by rwa [eq_of_execute_eq_error h]
  rollback m := ⟨rfl, rfl⟩
  select h ht _ := isAnswer_of_select h ht
  exists_connect m _ := ⟨_, rfl⟩
  exists_version m := ⟨_, rfl⟩
  exists_begin m h := by
    refine ⟨{ m with working := some m.saved }, ?_⟩
    simp only [engine, execute, show m.working = none from h]
  exists_commit m h := by
    obtain ⟨c, hw⟩ := Option.ne_none_iff_exists'.1 h
    refine ⟨{ m with saved := c, working := none }, ?_⟩
    simp only [engine, execute, hw]
  exists_edit m x h := by
    obtain ⟨m', hm'⟩ := exists_edit_eq_ok h
    exact ⟨m', execute_edit_eq_ok_iff.2 hm'⟩
  exists_prepare m name t columns ht hcolumns := by
    simp only [engine, prepare, show m.seen.object name = some (.table t) from ht]
    exact if_pos (List.all_eq_true.2 hcolumns)
  exists_select m s t ht hfits := by
    simp only [engine, select, show m.seen.object s.table = some (.table t) from ht]
    exact ⟨_, if_pos hfits⟩

end Memory

end MethodFingerprint.Database
