import MethodFingerprint.Feature

/-!
# Sets of features

A `FeatureSet` is a strictly ascending list of features. The order makes the list unique: two sets
with the same members are the same value, so comparing, printing and storing sets needs no
normalisation. The features of a method and the fingerprints found for it are both of this type.

`toList` is the view every operation is described by, through membership: `mem_insert`,
`mem_ofList`, `contains_iff`.
-/

namespace MethodFingerprint

namespace Feature

theorem lt_irrefl (f : Feature) : ¬f < f :=
  String.lt_irrefl f.token

theorem lt_trans {f g h : Feature} (hfg : f < g) (hgh : g < h) : f < h :=
  String.lt_trans hfg hgh

/-- Of two different features, one comes first. -/
theorem lt_of_not_lt_of_ne {f g : Feature} (h : ¬f < g) (hne : f ≠ g) : g < f := by
  refine Decidable.byContradiction fun h' ↦ hne ?_
  have heq : f.token = g.token :=
    Std.Trichotomous.trichotomous (r := (· < ·)) f.token g.token h h'
  exact congrArg Feature.mk heq

end Feature

/-- A finite set of features. -/
structure FeatureSet where
  toList : List Feature
  ascending : toList.Pairwise (· < ·)
  deriving DecidableEq

/-- A set of features that picks a method out of a corpus. -/
abbrev Fingerprint := FeatureSet

namespace FeatureSet

instance : Membership Feature FeatureSet := ⟨fun s f ↦ f ∈ s.toList⟩

theorem mem_def {f : Feature} {s : FeatureSet} : f ∈ s ↔ f ∈ s.toList := Iff.rfl

/-- The set without members. -/
def empty : FeatureSet := ⟨[], .nil⟩

instance : EmptyCollection FeatureSet := ⟨empty⟩

instance : Inhabited FeatureSet := ⟨empty⟩

@[simp] theorem toList_empty : (∅ : FeatureSet).toList = [] := rfl

/-- The number of features. -/
def size (s : FeatureSet) : Nat := s.toList.length

/-- Whether there are no features. -/
def isEmpty (s : FeatureSet) : Bool := s.toList.isEmpty

/-! ### Insertion -/

/-- Puts a feature where it belongs in an ascending list. -/
def insertAscending (f : Feature) : List Feature → List Feature
  | [] => [f]
  | g :: gs =>
    if f < g then f :: g :: gs else if f = g then g :: gs else g :: insertAscending f gs

theorem mem_insertAscending {f g : Feature} {l : List Feature} :
    g ∈ insertAscending f l ↔ g = f ∨ g ∈ l := by
  induction l with
  | nil => simp [insertAscending]
  | cons h l ih =>
    unfold insertAscending
    split
    · exact List.mem_cons
    · split
      · rename_i heq; subst heq; simp
      · rw [List.mem_cons, ih, List.mem_cons]; exact or_left_comm

theorem ascending_insertAscending {f : Feature} {l : List Feature} (hl : l.Pairwise (· < ·)) :
    (insertAscending f l).Pairwise (· < ·) := by
  induction hl with
  | nil => simp [insertAscending]
  | @cons g l hg hl ih =>
    unfold insertAscending
    split
    · rename_i hlt
      refine .cons (fun x hx ↦ ?_) (.cons hg hl)
      rcases List.mem_cons.1 hx with rfl | hx
      · exact hlt
      · exact Feature.lt_trans hlt (hg x hx)
    · split
      · exact .cons hg hl
      · rename_i hlt hne
        refine .cons (fun x hx ↦ ?_) ih
        rcases mem_insertAscending.1 hx with rfl | hx
        · exact Feature.lt_of_not_lt_of_ne hlt hne
        · exact hg x hx

/-- The set with one more member. -/
def insert (f : Feature) (s : FeatureSet) : FeatureSet :=
  ⟨insertAscending f s.toList, ascending_insertAscending s.ascending⟩

/-- Inserting adds one feature and nothing else. -/
@[simp] theorem mem_insert {f g : Feature} {s : FeatureSet} :
    g ∈ s.insert f ↔ g = f ∨ g ∈ s :=
  mem_insertAscending

/-- The set of the members of a list. -/
def ofList (l : List Feature) : FeatureSet :=
  l.foldl (fun s f ↦ s.insert f) ∅

theorem mem_foldl_insert {f : Feature} {l : List Feature} {s : FeatureSet} :
    f ∈ l.foldl (fun s f ↦ s.insert f) s ↔ f ∈ l ∨ f ∈ s := by
  induction l generalizing s with
  | nil => simp
  | cons g l ih => rw [List.foldl_cons, ih, mem_insert, List.mem_cons, or_left_comm, or_assoc]

/-- A set has the features of its list. -/
@[simp] theorem mem_ofList {f : Feature} {l : List Feature} : f ∈ ofList l ↔ f ∈ l := by
  rw [ofList, mem_foldl_insert]
  simp [mem_def]

/-! ### Membership -/

/-- Looks a feature up in an ascending list, giving up where it would have stood. -/
def searchAscending (f : Feature) : List Feature → Bool
  | [] => false
  | g :: gs => if f < g then false else if f = g then true else searchAscending f gs

theorem searchAscending_iff {f : Feature} {l : List Feature} (hl : l.Pairwise (· < ·)) :
    searchAscending f l = true ↔ f ∈ l := by
  induction hl with
  | nil => simp [searchAscending]
  | @cons g l hg hl ih =>
    unfold searchAscending
    split
    · rename_i hlt
      refine iff_of_false (by simp) fun hmem ↦ ?_
      rcases List.mem_cons.1 hmem with rfl | hmem
      · exact Feature.lt_irrefl f hlt
      · exact Feature.lt_irrefl f (Feature.lt_trans hlt (hg f hmem))
    · split
      · rename_i heq; simp [heq]
      · rename_i hne; rw [ih, List.mem_cons, or_iff_right hne]

/-- Whether a feature is a member. -/
def contains (s : FeatureSet) (f : Feature) : Bool :=
  searchAscending f s.toList

/-- **The search answers membership**, since the list it walks is ascending. -/
theorem contains_iff {s : FeatureSet} {f : Feature} : s.contains f = true ↔ f ∈ s :=
  searchAscending_iff s.ascending

/-! ### Comparing sets -/

/-- Whether a set has all members of another and is larger. -/
def isStrictSupersetOf (s t : FeatureSet) : Bool :=
  t.size < s.size && t.toList.all s.contains

/-- Sets are ordered as lists of tokens. -/
instance : LT FeatureSet := ⟨fun s t ↦ s.toList < t.toList⟩

instance (s t : FeatureSet) : Decidable (s < t) :=
  inferInstanceAs (Decidable (s.toList < t.toList))

/-- The order in which fingerprints are listed: by size, then by tokens. -/
def listedBefore (s t : FeatureSet) : Bool :=
  s.size < t.size || (s.size == t.size && !decide (t < s))

/-- A set as it is printed, `{token, token}`. -/
def display (s : FeatureSet) : String :=
  "\x7b" ++ ", ".intercalate (s.toList.map Feature.token) ++ "\x7d"

end FeatureSet

end MethodFingerprint
