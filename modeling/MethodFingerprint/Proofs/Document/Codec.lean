import MethodFingerprint.Document.Codec
import MethodFingerprint.Proofs.Document.Json
import Mathlib.Data.List.Forall2

/-!
# Codecs that read what they write

All that is relied on of a codec is that it is `Codec.Faithful`: every value has a text, and is read
from it again. `Codec.faithful_ofJson` says which codecs of JSON texts are.
-/

namespace MethodFingerprint

theorem map_eq_map_of_forall₂ {α β γ : Type} {g : α → γ} {g' : β → γ} {l : List α} {l' : List β}
    (h : List.Forall₂ (fun a b ↦ g a = g' b) l l') : l.map g = l'.map g' := by
  have hmapped := List.forall₂_map_left_iff.2 (List.forall₂_map_right_iff.2 h)
  rwa [List.forall₂_eq_eq_eq] at hmapped

/-- A list is read from what its members are read from. -/
theorem mapM_eq_pure_of_forall₂ {m : Type → Type} [Monad m] [LawfulMonad m] {α β : Type}
    {read : β → m α} {l : List α} {written : List β}
    (h : List.Forall₂ (fun a b ↦ read b = pure a) l written) : written.mapM read = pure l := by
  induction h with
  | nil => rw [List.mapM_nil]
  | cons hread _ ih => rw [List.mapM_cons, hread, pure_bind, ih, pure_bind]

/-- A list is read as one that stands for the same as what it is read from. -/
theorem exists_mapM_eq_pure_of_forall₂ {m : Type → Type} [Monad m] [LawfulMonad m] {α β γ : Type}
    {read : β → m γ} {R : α → γ → Prop} {l : List α} {written : List β}
    (h : List.Forall₂ (fun a b ↦ ∃ c, read b = pure c ∧ R a c) l written) :
    ∃ l', List.Forall₂ R l l' ∧ written.mapM read = pure l' := by
  induction h with
  | nil => exact ⟨[], .nil, List.mapM_nil⟩
  | cons hread _ ih =>
    obtain ⟨c, hread, hR⟩ := hread
    obtain ⟨l', hl', hmapM⟩ := ih
    refine ⟨c :: l', .cons hR hl', ?_⟩
    rw [List.mapM_cons, hread, pure_bind, hmapM, pure_bind]

/-! ### Arrays of texts -/

theorem Json.itemData_eq_map (items : List Json) : itemData items = items.map datum := by
  induction items with
  | nil => rfl
  | cons j js ih => rw [itemData, ih, List.map_cons]

/-- An array of texts is read as these texts. -/
theorem Datum.readTexts_ofStrings (l : List String) :
    readTexts (Json.ofStrings l).datum = pure l := by
  have hitems : List.Forall₂ (fun s d ↦ readText d = pure s) l
      (l.map (Json.datum ∘ Json.ofString)) :=
    List.forall₂_map_right_iff.2 (List.forall₂_same.2 fun s _ ↦ rfl)
  rw [readTexts, readSequence, Json.ofStrings, Json.datum, Json.itemData_eq_map, List.map_map,
    follow_sequence, pure_bind]
  exact mapM_eq_pure_of_forall₂ hitems

/-! ### Codecs -/

namespace Codec

variable {α : Type} {c : Codec α} {a : α} {text : String}

/-- A codec that writes every value as a text that it reads as this value. -/
def Faithful (c : Codec α) : Prop := ∀ a, ∃ text, c.encode a = .ok text ∧ c.decode text = .ok a

theorem Faithful.decode_eq_ok (h : c.Faithful) (hencode : c.encode a = .ok text) :
    c.decode text = .ok a := by
  obtain ⟨text', hencode', hdecode⟩ := h a
  rw [hencode] at hencode'
  rwa [Except.ok.inj hencode']

/-- **A codec of JSON texts is faithful** if all values are plain and can be read from their form.
-/
theorem faithful_ofJson {json : α → Json} {read : Datum.Reader α} (hplain : ∀ a, (json a).IsPlain)
    (hread : ∀ a, (json a).readAs? read = some a) : (ofJson json read).Faithful := by
  intro a
  refine ⟨(json a).compact, rfl, ?_⟩
  simp only [ofJson, Json.read?_compact (hplain a), Option.bind_some, hread a]

end Codec

end MethodFingerprint
