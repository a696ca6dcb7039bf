import MethodFingerprint.Pattern.Render
import Mathlib.Tactic.ByContra

/-!
# What is gathered from features

Gathering goes through the features once and keeps what it needs. `Gathering.Holds` says what that
is in terms of the readings of the well-formed features alone: the first return type, the first
mask, the first type of each position and the distinct strings. One feature more is one reading more
(`Gathering.Holds.takeReading`) or, if it is malformed, none, so the invariant goes through the
whole list (`Gathering.holds_ofFeatures`).
-/

namespace MethodFingerprint

/-! ### Readings -/

/-- What the well-formed ones of some features say, in the same order. -/
def readings (features : List Feature) : List Reading :=
  features.filterMap fun f ↦ f.read.toOption

theorem toOption_eq_some_iff {ε α : Type} {x : Except ε α} {a : α} :
    x.toOption = some a ↔ x = .ok a := by
  cases x <;> simp [Except.toOption]

theorem mem_readings {features : List Feature} {r : Reading} :
    r ∈ readings features ↔ ∃ f ∈ features, f.read = .ok r := by
  simp only [readings, List.mem_filterMap, toOption_eq_some_iff]

/-- What is wrong with the malformed ones of some features, in the same order. -/
def malformations (features : List Feature) : List Malformed :=
  features.filterMap fun f ↦ match f.read with
    | .error m => some m
    | .ok _ => none

namespace Reading

/-- The return type a reading gives. -/
def returnType? : Reading → Option String
  | returnType descriptor => some descriptor
  | _ => none

/-- The mask of access flags a reading gives. -/
def mask? : Reading → Option UInt32
  | accessFlags mask => some mask
  | _ => none

/-- The position a reading gives a type for. -/
def index? : Reading → Option Nat
  | parameter index _ => some index
  | _ => none

/-- The type a reading gives for a position. -/
def typeAt? (index : Nat) : Reading → Option String
  | parameter i descriptor => if i = index then some descriptor else none
  | _ => none

/-- The string a reading gives. -/
def literal? : Reading → Option String
  | string literal => some literal
  | _ => none

section Given

variable {r : Reading} {index : Nat} {value : String}

theorem returnType?_eq_some_iff : r.returnType? = some value ↔ r = .returnType value := by
  cases r <;> simp [returnType?]

theorem mask?_eq_some_iff {mask : UInt32} : r.mask? = some mask ↔ r = .accessFlags mask := by
  cases r <;> simp [mask?]

theorem index?_eq_some_iff : r.index? = some index ↔ ∃ value, r = .parameter index value := by
  cases r <;> simp [index?]

theorem typeAt?_eq_some_iff : r.typeAt? index = some value ↔ r = .parameter index value := by
  cases r <;> simp [typeAt?]

theorem literal?_eq_some_iff : r.literal? = some value ↔ r = .string value := by
  cases r <;> simp [literal?]

end Given

end Reading

namespace Pattern

namespace Gathering

variable {g : Gathering} {rs : List Reading} {features : List Feature}

/-! ### One feature -/

section Report

variable (g : Gathering) (conflict : Bool) (notice : String)

@[simp] theorem returnType_report : (g.report conflict notice).returnType = g.returnType := by
  cases conflict <;> rfl

@[simp] theorem accessFlags_report : (g.report conflict notice).accessFlags = g.accessFlags := by
  cases conflict <;> rfl

@[simp] theorem parameters_report : (g.report conflict notice).parameters = g.parameters := by
  cases conflict <;> rfl

@[simp] theorem strings_report : (g.report conflict notice).strings = g.strings := by
  cases conflict <;> rfl

@[simp] theorem skipped_report : (g.report conflict notice).skipped = g.skipped := by
  cases conflict <;> rfl

end Report

/-- The first return type is kept. -/
theorem returnType_takeReading (g : Gathering) (r : Reading) :
    (g.takeReading r).returnType = g.returnType.or r.returnType? := by
  cases r with
  | returnType descriptor => cases h : g.returnType <;> simp [takeReading, h, Reading.returnType?]
  | accessFlags mask => cases h : g.accessFlags <;> simp [takeReading, h, Reading.returnType?]
  | parameter index descriptor =>
    cases h : g.parameters.lookup index <;> simp [takeReading, h, Reading.returnType?]
  | string literal =>
    by_cases h : literal ∈ g.strings <;> simp [takeReading, h, Reading.returnType?]

/-- The first mask is kept. -/
theorem accessFlags_takeReading (g : Gathering) (r : Reading) :
    (g.takeReading r).accessFlags = g.accessFlags.or r.mask? := by
  cases r with
  | returnType descriptor => cases h : g.returnType <;> simp [takeReading, h, Reading.mask?]
  | accessFlags mask => cases h : g.accessFlags <;> simp [takeReading, h, Reading.mask?]
  | parameter index descriptor =>
    cases h : g.parameters.lookup index <;> simp [takeReading, h, Reading.mask?]
  | string literal => by_cases h : literal ∈ g.strings <;> simp [takeReading, h, Reading.mask?]

/-- The first type of a position is kept. -/
theorem lookup_takeReading (g : Gathering) (r : Reading) (i : Nat) :
    (g.takeReading r).parameters.lookup i = (g.parameters.lookup i).or (r.typeAt? i) := by
  cases r with
  | returnType descriptor => cases h : g.returnType <;> simp [takeReading, h, Reading.typeAt?]
  | accessFlags mask => cases h : g.accessFlags <;> simp [takeReading, h, Reading.typeAt?]
  | parameter index descriptor =>
    cases h : g.parameters.lookup index with
    | none =>
      by_cases hi : index = i
      · subst hi
        simp [takeReading, h, Reading.typeAt?]
      · have hne : (i == index) = false := beq_eq_false_iff_ne.2 (Ne.symm hi)
        simp [takeReading, h, Reading.typeAt?, List.lookup_cons, hne, hi]
    | some kept =>
      by_cases hi : index = i
      · subst hi
        simp [takeReading, h]
      · simp [takeReading, h, Reading.typeAt?, hi]
  | string literal => by_cases h : literal ∈ g.strings <;> simp [takeReading, h, Reading.typeAt?]

/-- Every position with a type is kept. -/
theorem mem_parameters_takeReading (g : Gathering) (r : Reading) (i : Nat) :
    i ∈ (g.takeReading r).parameters.map Prod.fst ↔
      i ∈ g.parameters.map Prod.fst ∨ r.index? = some i := by
  cases r with
  | returnType descriptor => cases h : g.returnType <;> simp [takeReading, h, Reading.index?]
  | accessFlags mask => cases h : g.accessFlags <;> simp [takeReading, h, Reading.index?]
  | parameter index descriptor =>
    cases h : g.parameters.lookup index with
    | none => simp [takeReading, h, Reading.index?, or_comm, eq_comm]
    | some kept =>
      -- the position is known already
      have hmem : index ∈ g.parameters.map Prod.fst := by
        by_contra hnot
        have hnone : g.parameters.lookup index = none := by
          refine List.lookup_eq_none_iff.2 fun p hp ↦ bne_iff_ne.2 ?_
          rintro rfl
          exact hnot (List.mem_map_of_mem hp)
        rw [hnone] at h
        cases h
      rw [takeReading, h]
      simp only [parameters_report, Reading.index?, Option.some.injEq]
      refine (or_iff_left_of_imp ?_).symm
      rintro rfl
      exact hmem
  | string literal => by_cases h : literal ∈ g.strings <;> simp [takeReading, h, Reading.index?]

/-- A string is kept once. -/
theorem strings_takeReading (g : Gathering) (r : Reading) :
    (g.takeReading r).strings.reverse =
      g.strings.reverse ++ r.literal?.toList.removeAll g.strings := by
  cases r with
  | returnType descriptor => cases h : g.returnType <;> simp [takeReading, h, Reading.literal?]
  | accessFlags mask => cases h : g.accessFlags <;> simp [takeReading, h, Reading.literal?]
  | parameter index descriptor =>
    cases h : g.parameters.lookup index <;> simp [takeReading, h, Reading.literal?]
  | string literal =>
    by_cases h : literal ∈ g.strings <;> simp [takeReading, h, Reading.literal?, List.removeAll]

/-! ### A list of features -/

/-- **What was gathered** from features with some readings. -/
structure Holds (g : Gathering) (rs : List Reading) : Prop where
  returnType_eq : g.returnType = rs.findSome? Reading.returnType?
  accessFlags_eq : g.accessFlags = rs.findSome? Reading.mask?
  lookup_eq : ∀ i, g.parameters.lookup i = rs.findSome? (Reading.typeAt? i)
  mem_iff : ∀ i, i ∈ g.parameters.map Prod.fst ↔ i ∈ rs.filterMap Reading.index?
  strings_eq : g.strings.reverse = (rs.filterMap Reading.literal?).eraseDups

namespace Holds

/-- **One reading more.** -/
theorem takeReading (h : g.Holds rs) (r : Reading) : (g.takeReading r).Holds (rs ++ [r]) where
  returnType_eq := by
    rw [returnType_takeReading, h.returnType_eq, List.findSome?_append, List.findSome?_singleton]
  accessFlags_eq := by
    rw [accessFlags_takeReading, h.accessFlags_eq, List.findSome?_append, List.findSome?_singleton]
  lookup_eq i := by
    rw [lookup_takeReading, h.lookup_eq, List.findSome?_append, List.findSome?_singleton]
  mem_iff i := by
    rw [mem_parameters_takeReading, h.mem_iff]
    simp
  strings_eq := by
    -- a string is known exactly if a reading so far has given it
    have hmem (l : String) : l ∈ g.strings ↔ l ∈ rs.filterMap Reading.literal? := by
      rw [← List.mem_reverse, h.strings_eq, List.mem_eraseDups]
    rw [strings_takeReading, h.strings_eq, List.filterMap_append, List.eraseDups_append]
    generalize rs.filterMap Reading.literal? = known at hmem ⊢
    congr 1
    cases hl : r.literal? with
    | none => simp [hl]
    | some l =>
      by_cases hin : l ∈ g.strings
      · simp [hl, List.cons_removeAll, hin, (hmem l).1 hin]
      · simp [hl, List.cons_removeAll, hin, mt (hmem l).2 hin, List.eraseDups_cons]

end Holds

theorem holds_empty : Holds {} [] where
  returnType_eq := rfl
  accessFlags_eq := rfl
  lookup_eq _ := rfl
  mem_iff _ := Iff.rfl
  strings_eq := rfl

/-- **One feature more.** A malformed one says nothing. -/
theorem Holds.take (h : g.Holds rs) (f : Feature) :
    (g.take f).Holds (rs ++ f.read.toOption.toList) := by
  unfold Gathering.take
  cases f.read with
  | error m =>
    show Holds _ (rs ++ [])
    rw [List.append_nil]
    exact { h with }
  | ok r => exact h.takeReading r

/-- **What a list of features comes to**, by induction on it. -/
theorem Holds.foldl_take (h : g.Holds rs) (features : List Feature) :
    (features.foldl Gathering.take g).Holds (rs ++ readings features) := by
  induction features generalizing g rs with
  | nil =>
    rw [readings, List.filterMap_nil, List.append_nil]
    exact h
  | cons f features ih =>
    have hcons : readings (f :: features) = f.read.toOption.toList ++ readings features := by
      rw [readings, List.filterMap_cons]
      cases f.read.toOption <;> rfl
    rw [hcons, ← List.append_assoc]
    exact ih (h.take f)

theorem holds_ofFeatures (features : List Feature) :
    (ofFeatures features).Holds (readings features) :=
  holds_empty.foldl_take features

/-! ### What is set aside -/

/-- A well-formed feature is not set aside. -/
theorem skipped_takeReading (g : Gathering) (r : Reading) :
    (g.takeReading r).skipped = g.skipped := by
  cases r with
  | returnType descriptor => cases h : g.returnType <;> simp [takeReading, h]
  | accessFlags mask => cases h : g.accessFlags <;> simp [takeReading, h]
  | parameter index descriptor => cases h : g.parameters.lookup index <;> simp [takeReading, h]
  | string literal => by_cases h : literal ∈ g.strings <;> simp [takeReading, h]

theorem skipped_take (g : Gathering) (f : Feature) :
    (g.take f).skipped.reverse = g.skipped.reverse ++ malformations [f] := by
  rw [take, malformations, List.filterMap_cons, List.filterMap_nil]
  cases f.read with
  | error m => exact List.reverse_cons
  | ok r => simp [skipped_takeReading]

theorem skipped_foldl_take (g : Gathering) (features : List Feature) :
    (features.foldl take g).skipped.reverse = g.skipped.reverse ++ malformations features := by
  induction features generalizing g with
  | nil => exact (List.append_nil _).symm
  | cons f features ih =>
    have hcons : malformations (f :: features) = malformations [f] ++ malformations features :=
      List.filterMap_append (l := [f])
    rw [List.foldl_cons, ih, skipped_take, hcons, List.append_assoc]

/-- **What is set aside are the malformed features**, in the order in which they were given. -/
theorem skipped_ofFeatures (features : List Feature) :
    (ofFeatures features).skipped.reverse = malformations features :=
  skipped_foldl_take {} features

end Gathering

end Pattern

end MethodFingerprint
