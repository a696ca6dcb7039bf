import MethodFingerprint.Database.Contents

/-!
# What edits leave alone

Tables and indices are created only where there is nothing of the name. So nothing that is there
changes (`Contents.object_withTable_of_some`), and as new tables have no rows, neither do the rows
of any table (`Contents.rows_withTable`, `Contents.rows_withIndex`).
-/

namespace MethodFingerprint.Database.Contents

variable {c : Contents} {name other table column : String} {layout : Layout} {o : Object}

/-! ### Tables -/

theorem takesTable_eq_true_iff :
    c.takesTable name = true ↔ ∀ o, c.object name = some o → o.isIndex = false := by
  rw [takesTable]
  cases c.object name <;> simp

theorem withTable_of_some (h : c.object name = some o) (layout : Layout) :
    c.withTable name layout = c := by
  rw [withTable, h]
  rfl

theorem withTable_of_none (h : c.object name = none) (layout : Layout) :
    c.withTable name layout = c.put name (.table { layout }) := by
  rw [withTable, h]
  rfl

theorem object_withTable_of_ne (h : other ≠ name) (layout : Layout) :
    (c.withTable name layout).object other = c.object other := by
  cases hname : c.object name with
  | none => rw [withTable_of_none hname, object_put_of_ne h]
  | some o => rw [withTable_of_some hname]

/-- Under the name stands what stood there, or the new table. -/
theorem object_withTable_self (c : Contents) (name : String) (layout : Layout) :
    (c.withTable name layout).object name = some ((c.object name).getD (.table { layout })) := by
  cases hname : c.object name with
  | none =>
    rw [withTable_of_none hname, object_put_self]
    rfl
  | some o =>
    rw [withTable_of_some hname, hname]
    rfl

/-- **A table that is created has no rows**, and other tables keep theirs. -/
@[simp] theorem rows_withTable (c : Contents) (name : String) (layout : Layout) (other : String) :
    (c.withTable name layout).rows other = c.rows other := by
  by_cases h : other = name
  · subst h
    rw [rows, rows, object_withTable_self]
    cases c.object other <;> rfl
  · rw [rows, rows, object_withTable_of_ne h]

/-! ### Indices -/

theorem takesIndex_eq_true_iff :
    c.takesIndex name table column = true ↔ ∃ o columns, c.object table = some o ∧
      o.indexable? = some columns ∧ (c.object name = none → column ∈ columns) ∧
      ∀ o', c.object name = some o' → o'.isIndex = true := by
  rw [takesIndex]
  cases c.object table with
  | none => simp
  | some o =>
    cases ho : o.indexable? with
    | none => simp [ho]
    | some columns => cases c.object name <;> simp [ho]

theorem withIndex_of_some (h : c.object name = some o) (table column : String) :
    c.withIndex name table column = c := by
  rw [withIndex, h]
  rfl

theorem withIndex_of_none (h : c.object name = none) (table column : String) :
    c.withIndex name table column = c.put name (.index table column) := by
  rw [withIndex, h]
  rfl

theorem object_withIndex_of_ne (h : other ≠ name) (table column : String) :
    (c.withIndex name table column).object other = c.object other := by
  cases hname : c.object name with
  | none => rw [withIndex_of_none hname, object_put_of_ne h]
  | some o => rw [withIndex_of_some hname]

/-- Under the name stands what stood there, or the new index. -/
theorem object_withIndex_self (c : Contents) (name table column : String) :
    (c.withIndex name table column).object name =
      some ((c.object name).getD (.index table column)) := by
  cases hname : c.object name with
  | none =>
    rw [withIndex_of_none hname, object_put_self]
    rfl
  | some o =>
    rw [withIndex_of_some hname, hname]
    rfl

/-- An index has no rows. -/
@[simp] theorem rows_withIndex (c : Contents) (name table column other : String) :
    (c.withIndex name table column).rows other = c.rows other := by
  by_cases h : other = name
  · subst h
    cases hname : c.object other with
    | none => rw [withIndex_of_none hname, rows, rows, object_put_self, hname]
    | some o => rw [withIndex_of_some hname]
  · rw [rows, rows, object_withIndex_of_ne h]

/-- Rows do not depend on the version. -/
@[simp] theorem rows_setVersion (c : Contents) (version : Int32) (name : String) :
    { c with version }.rows name = c.rows name :=
  rfl

end MethodFingerprint.Database.Contents
