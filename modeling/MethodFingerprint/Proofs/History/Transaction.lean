import MethodFingerprint.History.Backend
import MethodFingerprint.Proofs.Database.Laws

/-!
# Actions within a transaction

What is done within a transaction is followed through what is seen. `Works` says what an action
makes of that if it succeeds, and that it saves nothing either way; `Succeeds` says of which
contents it can rely on to succeed. Both are put together step by step (`Works.bind`,
`Succeeds.bind`), and the laws of the engine give them for single steps.

A transaction made of such steps is then **all or nothing** (`Works.ok_of_batch`,
`Works.error_of_transaction`): it saves what its steps have made of the contents, or what has been
saved stays what it was.
-/

namespace MethodFingerprint.History

open Database

variable {Db α β : Type} {b : Backend Db} {v : View Db} {d d' : Db} {e : HistoryError}
  {x : Action Db α} {f : α → Action Db β} {P : Contents → Prop}
  {R : Contents → α → Contents → Prop}

/-! ### One action after another -/

namespace Action

theorem bind_apply (x : Action Db α) (f : α → Action Db β) (d : Db) :
    (x >>= f) d = match x d with
      | (.ok a, d) => f a d
      | (.error e, d) => (.error e, d) :=
  rfl

theorem bind_eq_ok_iff {c : β} :
    (x >>= f) d = (.ok c, d') ↔ ∃ a d₁, x d = (.ok a, d₁) ∧ f a d₁ = (.ok c, d') := by
  rw [bind_apply]
  rcases x d with ⟨_ | _, _⟩ <;> simp [and_assoc]

theorem bind_eq_error_iff :
    (x >>= f) d = (.error e, d') ↔
      x d = (.error e, d') ∨ ∃ a d₁, x d = (.ok a, d₁) ∧ f a d₁ = (.error e, d') := by
  rw [bind_apply]
  rcases x d with ⟨_ | _, _⟩ <;> simp [and_assoc]

theorem bind_pure (x : Action Db α) : (x >>= Pure.pure) = x := by
  funext d
  rw [bind_apply]
  rcases x d with ⟨_ | _, _⟩ <;> rfl

theorem bind_assoc {γ : Type} (x : Action Db α) (f : α → Action Db β) (g : β → Action Db γ) :
    x >>= f >>= g = x >>= fun a ↦ f a >>= g := by
  funext d
  rw [bind_apply, bind_apply, bind_apply]
  rcases x d with ⟨_ | _, _⟩ <;> rfl

instance : LawfulMonad (Action Db) :=
  LawfulMonad.mk' (Action Db) bind_pure (fun _ _ ↦ rfl) bind_assoc

end Action

/-- A changed error is an error. -/
theorem mapError_eq_error_iff {ε ε' : Type} {g : ε → ε'} {r : Except ε α} {e' : ε'} :
    r.mapError g = .error e' ↔ ∃ e, r = .error e ∧ g e = e' := by
  cases r with
  | error e =>
    constructor
    · exact fun h ↦ ⟨e, rfl, Except.error.inj h⟩
    · rintro ⟨_, ⟨⟩, rfl⟩
      rfl
  | ok a => exact ⟨nofun, nofun⟩

theorem mapError_eq_ok_iff {ε ε' : Type} {g : ε → ε'} {r : Except ε α} {a : α} :
    r.mapError g = .ok a ↔ r = .ok a := by
  cases r with
  | error e => exact ⟨nofun, nofun⟩
  | ok a' =>
    exact ⟨fun h ↦ congrArg _ (Except.ok.inj h), fun h ↦ congrArg _ (Except.ok.inj h)⟩

namespace Backend

theorem execute_eq_ok_iff {s : Statement} :
    b.execute s d = (.ok (), d') ↔ b.engine.execute s d = (.ok (), d') := by
  rcases hexecute : b.engine.execute s d with ⟨answer, d₁⟩
  rw [execute, hexecute, Prod.mk.injEq, Prod.mk.injEq, mapError_eq_ok_iff]

theorem execute_eq_error_iff {s : Statement} :
    b.execute s d = (.error e, d') ↔
      ∃ r, b.engine.execute s d = (.error r, d') ∧ e = .sql r := by
  rcases hexecute : b.engine.execute s d with ⟨answer, d₁⟩
  rw [execute, hexecute, Prod.mk.injEq, mapError_eq_error_iff]
  simp only [Prod.mk.injEq]
  constructor
  · rintro ⟨⟨r, rfl, rfl⟩, rfl⟩
    exact ⟨r, ⟨rfl, rfl⟩, rfl⟩
  · rintro ⟨r, ⟨rfl, rfl⟩, rfl⟩
    exact ⟨⟨r, rfl, rfl⟩, rfl⟩

theorem orRollback_eq_ok_iff {a : α} :
    b.orRollback x d = (.ok a, d') ↔ x d = (.ok a, d') := by
  rw [orRollback]
  rcases x d with ⟨_ | _, _⟩ <;> simp

theorem orRollback_eq_error_iff :
    b.orRollback x d = (.error e, d') ↔
      ∃ d₁, x d = (.error e, d₁) ∧ b.engine.rollback d₁ = d' := by
  rw [orRollback]
  rcases x d with ⟨_ | _, _⟩ <;> simp [and_assoc]

end Backend

/-! ### What an action makes of the contents -/

/-- **An action makes something of the contents within a transaction**: if it succeeds, what is seen
before and after it and what it answers are related, and the transaction is still open. Whether it
succeeds or not, nothing is saved. -/
structure Works (v : View Db) (x : Action Db α) (R : Contents → α → Contents → Prop) : Prop where
  ok {d d' : Db} {a : α} : ¬v.idle d → x d = (.ok a, d') →
    ¬v.idle d' ∧ v.saved d' = v.saved d ∧ R (v.seen d) a (v.seen d')
  error {d d' : Db} {e : HistoryError} : ¬v.idle d → x d = (.error e, d') → v.saved d' = v.saved d

/-- **An action succeeds within a transaction** that shows contents of some kind. -/
def Succeeds (v : View Db) (x : Action Db α) (P : Contents → Prop) : Prop :=
  ∀ d, ¬v.idle d → P (v.seen d) → ∃ a d', x d = (.ok a, d')

namespace Works

theorem pure (a : α) : Works v (Pure.pure a : Action Db α) fun c a' c' ↦ a' = a ∧ c' = c where
  ok h := by
    rintro ⟨⟩
    exact ⟨h, rfl, rfl, rfl⟩
  error _ := nofun

/-- **One action after another.** -/
theorem bind {S : α → Contents → β → Contents → Prop} (hx : Works v x R)
    (hf : ∀ a, Works v (f a) (S a)) :
    Works v (x >>= f) fun c a c' ↦ ∃ a₁ c₁, R c a₁ c₁ ∧ S a₁ c₁ a c' where
  ok {d d' a} hd h := by
    obtain ⟨a₁, d₁, hx₁, hf₁⟩ := Action.bind_eq_ok_iff.1 h
    obtain ⟨hd₁, hsaved₁, hR⟩ := hx.ok hd hx₁
    obtain ⟨hd', hsaved', hS⟩ := (hf a₁).ok hd₁ hf₁
    exact ⟨hd', hsaved'.trans hsaved₁, a₁, _, hR, hS⟩
  error {d d' e} hd h := by
    obtain hx₁ | ⟨a₁, d₁, hx₁, hf₁⟩ := Action.bind_eq_error_iff.1 h
    · exact hx.error hd hx₁
    · obtain ⟨hd₁, hsaved₁, -⟩ := hx.ok hd hx₁
      exact ((hf a₁).error hd₁ hf₁).trans hsaved₁

theorem mono {S : Contents → α → Contents → Prop} (hx : Works v x R)
    (h : ∀ c a c', R c a c' → S c a c') : Works v x S where
  ok hd hok :=
    have ⟨hd', hsaved, hR⟩ := hx.ok hd hok
    ⟨hd', hsaved, h _ _ _ hR⟩
  error := hx.error

/-- Writing a text touches no database. -/
theorem encode (codec : Codec α) (a : α) :
    Works v (Backend.encode codec a : Action Db String) fun c text c' ↦
      codec.encode a = .ok text ∧ c' = c where
  ok {d d' text} hd h := by
    obtain ⟨hencode, rfl⟩ := Prod.mk.inj h
    exact ⟨hd, rfl, mapError_eq_ok_iff.1 hencode, rfl⟩
  error {d d' e} _ h := by
    obtain ⟨-, rfl⟩ := Prod.mk.inj h
    rfl

/-- Getting ready changes nothing. -/
theorem prepare (b : Backend Db) (table : String) (columns : List String) :
    Works v (b.prepare table columns) fun c _ c' ↦ c' = c where
  ok {d d' _} hd h := by
    obtain ⟨-, rfl⟩ := Prod.mk.inj h
    exact ⟨hd, rfl, rfl⟩
  error {d d' e} _ h := by
    obtain ⟨-, rfl⟩ := Prod.mk.inj h
    rfl

/-- **An edit makes of the contents what it is to make of them.** -/
theorem edit (h : b.engine.Lawful v) (x : Edit) :
    Works v (b.execute (.edit x)) fun c _ c' ↦ ∃ key, x.Makes c c' key where
  ok {d d' _} hd hok := by
    have hok' := Backend.execute_eq_ok_iff.1 hok
    exact ⟨mt (h.idle_of_edit hok').1 hd, h.saved_of_edit hok' hd, _, h.edit hok'⟩
  error {d d' e} _ herror := by
    obtain ⟨r, herror, -⟩ := Backend.execute_eq_error_iff.1 herror
    exact h.saved_of_error herror

/-- **A row is added under the key that is answered.** -/
theorem insertRow (h : b.engine.Lawful v) (table : String) (values : Row) :
    Works v (b.insertRow table values) fun c key c' ↦
      (Edit.insert table values).Makes c c' key where
  ok {d d' key} hd hok := by
    obtain ⟨⟨⟩, d₁, hexecute, hkey⟩ := Action.bind_eq_ok_iff.1 hok
    cases hkey
    have hok' := Backend.execute_eq_ok_iff.1 hexecute
    exact ⟨mt (h.idle_of_edit hok').1 hd, h.saved_of_edit hok' hd, h.edit hok'⟩
  error {d d' e} hd herror := by
    obtain herror | ⟨-, d₁, -, hkey⟩ := Action.bind_eq_error_iff.1 herror
    · exact (edit h _).error hd herror
    · nomatch (Prod.mk.inj hkey).1

end Works

namespace Succeeds

theorem mono {Q : Contents → Prop} (hx : Succeeds v x Q) (h : ∀ c, P c → Q c) : Succeeds v x P :=
  fun d hd hP ↦ hx d hd (h _ hP)

theorem pure (a : α) : Succeeds v (Pure.pure a : Action Db α) P :=
  fun d _ _ ↦ ⟨a, d, rfl⟩

/-- **One action after another**: the first succeeds, and what it makes of the contents is something
that the second can rely on. -/
theorem bind {Q : α → Contents → Prop} (hx : Succeeds v x P) (hworks : Works v x R)
    (hf : ∀ a, Succeeds v (f a) (Q a)) (h : ∀ c a c', P c → R c a c' → Q a c') :
    Succeeds v (x >>= f) P := by
  intro d hd hP
  obtain ⟨a, d₁, hx₁⟩ := hx d hd hP
  obtain ⟨hd₁, -, hR⟩ := hworks.ok hd hx₁
  obtain ⟨a', d', hf₁⟩ := hf a d₁ hd₁ (h _ _ _ hP hR)
  exact ⟨a', d', Action.bind_eq_ok_iff.2 ⟨a, d₁, hx₁, hf₁⟩⟩

theorem encode {codec : Codec α} {a : α} {text : String} (h : codec.encode a = .ok text) :
    Succeeds v (Backend.encode codec a : Action Db String) P :=
  fun d _ _ ↦ ⟨text, d, by rw [Backend.encode, h]; rfl⟩

theorem prepare (h : b.engine.Reliable v) (table : String) (columns : List String) :
    Succeeds v (b.prepare table columns) fun c ↦ ∃ t, c.object table = some (.table t) ∧
      ∀ column ∈ columns, (t.layout.kind? column).isSome := by
  intro d _ ⟨t, ht, hcolumns⟩
  exact ⟨(), d, by rw [Backend.prepare, h.exists_prepare d table t columns ht hcolumns]; rfl⟩

theorem edit (h : b.engine.Reliable v) (x : Edit) :
    Succeeds v (b.execute (.edit x)) fun c ↦ x.IsPossible c := by
  intro d _ hpossible
  obtain ⟨d', hd'⟩ := h.exists_edit d x hpossible
  exact ⟨(), d', Backend.execute_eq_ok_iff.2 hd'⟩

theorem insertRow (h : b.engine.Reliable v) (table : String) (values : Row) :
    Succeeds v (b.insertRow table values) (Edit.insert table values).IsPossible := by
  intro d _ hpossible
  obtain ⟨d', hd'⟩ := h.exists_edit d _ hpossible
  exact ⟨_, d', Action.bind_eq_ok_iff.2 ⟨(), d', Backend.execute_eq_ok_iff.2 hd', rfl⟩⟩

end Succeeds

/-! ### Lists of actions -/

/-- What steps make of the contents, one after another. -/
def Steps (S : α → Contents → Contents → Prop) : List α → Contents → Contents → Prop
  | [], c, c' => c' = c
  | a :: l, c, c' => ∃ c₁, S a c c₁ ∧ Steps S l c₁ c'

/-- What steps need of the contents, each of what those before it have made. -/
def CanStep (Q : α → Contents → Prop) (S : α → Contents → Contents → Prop) :
    List α → Contents → Prop
  | [], _ => True
  | a :: l, c => Q a c ∧ ∀ c₁, S a c c₁ → CanStep Q S l c₁

/-- By induction on the list, one step before the others. -/
theorem Works.forM {g : α → Action Db Unit} {S : α → Contents → Contents → Prop}
    (hg : ∀ a, Works v (g a) fun c _ c' ↦ S a c c') (l : List α) :
    Works v (l.forM g) fun c _ c' ↦ Steps S l c c' := by
  induction l with
  | nil => exact (Works.pure ()).mono fun _ _ _ hpure ↦ hpure.2
  | cons a l ih =>
    refine ((hg a).bind fun _ ↦ ih).mono ?_
    rintro c _ c' ⟨-, c₁, hstep, hrest⟩
    exact ⟨c₁, hstep, hrest⟩

theorem Succeeds.forM {g : α → Action Db Unit} {Q : α → Contents → Prop}
    {S : α → Contents → Contents → Prop} (hg : ∀ a, Succeeds v (g a) (Q a))
    (hworks : ∀ a, Works v (g a) fun c _ c' ↦ S a c c') (l : List α) :
    Succeeds v (l.forM g) (CanStep Q S l) := by
  induction l with
  | nil => exact Succeeds.pure ()
  | cons a l ih =>
    exact ((hg a).mono fun _ hcan ↦ hcan.1).bind (hworks a) (fun _ ↦ ih)
      fun _ _ c₁ hcan hstep ↦ hcan.2 c₁ hstep

/-! ### Transactions -/

namespace Backend

/-- Does something and saves it. -/
def committing (b : Backend Db) (x : Action Db α) : Action Db α := do
  let a ← x
  b.execute .commit
  return a

/-- Does something between the beginning and the end of a transaction. -/
def batch (b : Backend Db) (x : Action Db α) : Action Db α := do
  b.execute .begin
  b.committing x

/-- Does something in a transaction, and gives up the transaction if that fails. -/
def transaction (b : Backend Db) (x : Action Db α) : Action Db α := do
  b.execute .begin
  b.orRollback (b.committing x)

/-- What is given up saves nothing more. -/
theorem idle_of_orRollback (h : b.engine.Lawful v)
    (herror : b.orRollback x d = (.error e, d')) :
    v.idle d' ∧ ∃ d₁, x d = (.error e, d₁) ∧ v.saved d' = v.saved d₁ := by
  obtain ⟨d₁, hfail, rfl⟩ := orRollback_eq_error_iff.1 herror
  obtain ⟨hidle, hsaved⟩ := h.rollback d₁
  exact ⟨hidle, d₁, hfail, hsaved⟩

theorem transaction_eq_ok_iff {a : α} :
    b.transaction x d = (.ok a, d') ↔ b.batch x d = (.ok a, d') := by
  simp only [transaction, batch, Action.bind_eq_ok_iff, orRollback_eq_ok_iff]

end Backend

namespace Works

theorem saved_of_committing (hx : Works v x R) (h : b.engine.Lawful v) (hd : ¬v.idle d)
    (herror : b.committing x d = (.error e, d')) : v.saved d' = v.saved d := by
  obtain hx₁ | ⟨a₁, d₂, hx₁, hrest⟩ := Action.bind_eq_error_iff.1 herror
  · exact hx.error hd hx₁
  · obtain ⟨-, hsaved₂, -⟩ := hx.ok hd hx₁
    obtain hcommit | ⟨-, d₃, -, ⟨⟩⟩ := Action.bind_eq_error_iff.1 hrest
    obtain ⟨r, hcommit, -⟩ := Backend.execute_eq_error_iff.1 hcommit
    exact (h.saved_of_error hcommit).trans hsaved₂

/-- **A batch that succeeds saves what its steps have made of the contents.** -/
theorem ok_of_batch (hx : Works v x R) (h : b.engine.Lawful v) {a : α}
    (hok : b.batch x d = (.ok a, d')) : v.idle d' ∧ R (v.seen d) a (v.seen d') := by
  obtain ⟨⟨⟩, d₁, hbegin, hrest⟩ := Action.bind_eq_ok_iff.1 hok
  obtain ⟨a₁, d₂, hx₂, hrest⟩ := Action.bind_eq_ok_iff.1 hrest
  obtain ⟨⟨⟩, d₃, hcommit, ⟨⟩⟩ := Action.bind_eq_ok_iff.1 hrest
  obtain ⟨hd₁, -, hseen₁⟩ := h.begin (Backend.execute_eq_ok_iff.1 hbegin)
  obtain ⟨hidle, hseen⟩ := h.commit (Backend.execute_eq_ok_iff.1 hcommit)
  rw [hseen, ← hseen₁]
  exact ⟨hidle, (hx.ok hd₁ hx₂).2.2⟩

/-- **A batch that fails saves nothing.** -/
theorem saved_of_batch (hx : Works v x R) (h : b.engine.Lawful v)
    (herror : b.batch x d = (.error e, d')) : v.saved d' = v.saved d := by
  obtain hbegin | ⟨⟨⟩, d₁, hbegin, hrest⟩ := Action.bind_eq_error_iff.1 herror
  · obtain ⟨r, hbegin, -⟩ := Backend.execute_eq_error_iff.1 hbegin
    exact h.saved_of_error hbegin
  · obtain ⟨hd₁, hsaved, -⟩ := h.begin (Backend.execute_eq_ok_iff.1 hbegin)
    exact (hx.saved_of_committing h hd₁ hrest).trans hsaved

/-- **A transaction that fails changes nothing.** -/
theorem error_of_transaction (hx : Works v x R) (h : b.engine.Lawful v) (hd : v.idle d)
    (herror : b.transaction x d = (.error e, d')) : v.idle d' ∧ v.seen d' = v.seen d := by
  have hsaved : v.idle d' ∧ v.saved d' = v.saved d := by
    obtain hbegin | ⟨⟨⟩, d₁, hbegin, hrest⟩ := Action.bind_eq_error_iff.1 herror
    · obtain ⟨r, hbegin, -⟩ := Backend.execute_eq_error_iff.1 hbegin
      exact ⟨h.idle_of_error hbegin hd, h.saved_of_error hbegin⟩
    · obtain ⟨hd₁, hsaved₁, -⟩ := h.begin (Backend.execute_eq_ok_iff.1 hbegin)
      obtain ⟨hidle, d₂, hfail, hsaved⟩ := Backend.idle_of_orRollback h hrest
      exact ⟨hidle, hsaved.trans ((hx.saved_of_committing h hd₁ hfail).trans hsaved₁)⟩
  exact ⟨hsaved.1, h.seen_eq hd hsaved.1 hsaved.2⟩

end Works

/-- **A batch succeeds if its steps do.** -/
theorem Succeeds.batch (hx : Succeeds v x P) (hworks : Works v x R) (h : b.engine.Reliable v)
    (hd : v.idle d) (hP : P (v.seen d)) : ∃ a d', b.batch x d = (.ok a, d') := by
  obtain ⟨d₁, hbegin⟩ := h.exists_begin d hd
  obtain ⟨hd₁, -, hseen⟩ := h.begin hbegin
  obtain ⟨a, d₂, hx₂⟩ := hx d₁ hd₁ (hseen ▸ hP)
  obtain ⟨d₃, hcommit⟩ := h.exists_commit d₂ (hworks.ok hd₁ hx₂).1
  have hrest : b.committing x d₁ = (.ok a, d₃) :=
    Action.bind_eq_ok_iff.2 ⟨a, d₂, hx₂,
      Action.bind_eq_ok_iff.2 ⟨(), d₃, Backend.execute_eq_ok_iff.2 hcommit, rfl⟩⟩
  exact ⟨a, d₃, Action.bind_eq_ok_iff.2 ⟨(), d₁, Backend.execute_eq_ok_iff.2 hbegin, hrest⟩⟩

end MethodFingerprint.History
