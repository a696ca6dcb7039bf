import MethodFingerprint.Proofs.Index.Contents

/-!
# Ids as keys

The id of a method spells its class, its name, the types of its parameters and its return type, one
behind the other. Only the parentheses are marked, and the types of the parameters are not separated
at all. All the same, nothing is lost if the parts are what they should be: a class descriptor ends
at its first semicolon, a name has no parenthesis, and a type descriptor shows where it ends.

The last point is the one with an argument to it. `readDescriptor?` takes the descriptor off the
front of a text whatever stands behind it (`IsDescriptor.readDescriptor?_append`). So a text starts
with one descriptor at most, and a row of descriptors up to a parenthesis, which starts none, can be
taken apart in one way only (`eq_of_flatten_append`). Class, name and return type are what stands
before and behind it (`Signature.eq_of_id_eq`), and so an index keeps different signatures apart
(`Index.eraseDups_map_id_eq`).
-/

namespace MethodFingerprint

open Text

/-! ### Descriptors -/

/-- The descriptor of a class: an `L`, its name and a semicolon, which no name has in it. -/
def IsClassDescriptor (s : List Char) : Prop :=
  ∃ name, ';' ∉ name ∧ s = 'L' :: name ++ [';']

/-- The descriptor of a type: a letter for a primitive type, a class, or an array of a type. -/
inductive IsDescriptor : List Char → Prop
  | primitive {c : Char} (h : c ∈ ['Z', 'B', 'S', 'C', 'I', 'J', 'F', 'D']) : IsDescriptor [c]
  | reference {s : List Char} (h : IsClassDescriptor s) : IsDescriptor s
  | array {s : List Char} (h : IsDescriptor s) : IsDescriptor ('[' :: s)

/-- Takes the descriptor off the front of a text: the descriptor and what follows it. -/
def readDescriptor? : List Char → Option (List Char × List Char)
  | [] => none
  | '[' :: s => (readDescriptor? s).map fun r ↦ ('[' :: r.1, r.2)
  | 'L' :: s => (splitFirst? ';' s).map fun r ↦ ('L' :: r.1 ++ [';'], r.2)
  | c :: s => if c ∈ ['Z', 'B', 'S', 'C', 'I', 'J', 'F', 'D'] then some ([c], s) else none

variable {s t rest rest' : List Char}

/-- A class descriptor ends at its first semicolon. -/
theorem IsClassDescriptor.readDescriptor?_append (h : IsClassDescriptor s) (rest : List Char) :
    readDescriptor? (s ++ rest) = some (s, rest) := by
  obtain ⟨name, hname, rfl⟩ := h
  have hsplit : splitFirst? ';' (name ++ ';' :: rest) = some (name, rest) :=
    splitFirst?_eq_some.2 ⟨rfl, hname⟩
  rw [List.append_assoc, List.cons_append, List.singleton_append, readDescriptor?, hsplit]
  rfl

/-- **A descriptor shows where it ends**, whatever follows it. -/
theorem IsDescriptor.readDescriptor?_append (h : IsDescriptor s) (rest : List Char) :
    readDescriptor? (s ++ rest) = some (s, rest) := by
  induction h with
  | primitive h =>
    simp only [List.mem_cons, List.not_mem_nil, or_false] at h
    rcases h with rfl | rfl | rfl | rfl | rfl | rfl | rfl | rfl <;> rfl
  | reference h => exact h.readDescriptor?_append rest
  | array _ ih =>
    rw [List.cons_append, readDescriptor?, ih]
    rfl

/-- **A text starts with one descriptor at most.** -/
theorem IsDescriptor.append_inj (h : IsDescriptor s) (h' : IsDescriptor t)
    (heq : s ++ rest = t ++ rest') : s = t ∧ rest = rest' := by
  have hread := h.readDescriptor?_append rest
  rw [heq, h'.readDescriptor?_append rest', Option.some.injEq, Prod.mk.injEq] at hread
  exact ⟨hread.1.symm, hread.2.symm⟩

/-- A parenthesis starts no descriptor. -/
theorem IsDescriptor.append_ne (h : IsDescriptor s) (rest rest' : List Char) :
    s ++ rest ≠ ')' :: rest' := by
  intro heq
  have hread := h.readDescriptor?_append rest
  rw [heq] at hread
  cases hread

/-- **Descriptors in a row can be taken apart in one way only**, by induction on one of the rows. -/
theorem eq_of_flatten_append {ps qs : List (List Char)} (hp : ∀ p ∈ ps, IsDescriptor p)
    (hq : ∀ q ∈ qs, IsDescriptor q)
    (heq : ps.flatten ++ ')' :: rest = qs.flatten ++ ')' :: rest') : ps = qs ∧ rest = rest' := by
  induction ps generalizing qs with
  | nil =>
    cases qs with
    | nil => exact ⟨rfl, List.tail_eq_of_cons_eq heq⟩
    | cons q qs =>
      rw [List.flatten_cons, List.append_assoc] at heq
      exact absurd heq.symm ((hq q List.mem_cons_self).append_ne _ _)
  | cons p ps ih =>
    obtain ⟨hp, hps⟩ := List.forall_mem_cons.1 hp
    rw [List.flatten_cons, List.append_assoc] at heq
    cases qs with
    | nil => exact absurd heq (hp.append_ne _ _)
    | cons q qs =>
      obtain ⟨hq, hqs⟩ := List.forall_mem_cons.1 hq
      rw [List.flatten_cons, List.append_assoc] at heq
      obtain ⟨rfl, htail⟩ := hp.append_inj hq heq
      obtain ⟨rfl, rfl⟩ := ih hps hqs htail
      exact ⟨rfl, rfl⟩

/-! ### Signatures -/

/-- What tells methods apart. -/
structure Signature where
  definingClass : String
  name : String
  parameters : List String
  returnType : String
  deriving DecidableEq, Repr

/-- The signature of a record. -/
def Method.signature (m : Method) : Signature :=
  ⟨m.definingClass, m.name, m.parameters, m.returnType⟩

namespace Signature

/-- A signature is **well formed** if its class and its parameters are given by descriptors and its
name has no parenthesis. Nothing is asked of the return type. -/
structure IsWellFormed (s : Signature) : Prop where
  definingClass : IsClassDescriptor s.definingClass.toList
  name : '(' ∉ s.name.toList
  parameters : ∀ p ∈ s.parameters, IsDescriptor p.toList

/-- The id of the methods with a signature. -/
def id (s : Signature) : MethodId :=
  ⟨s.definingClass ++ s.name ++ "(" ++ String.join s.parameters ++ ")" ++ s.returnType⟩

variable {s t : Signature}

/-- The parts of an id, in order. -/
theorem toList_id (s : Signature) : s.id.text.toList =
    s.definingClass.toList ++ (s.name.toList ++ '(' ::
      ((s.parameters.map String.toList).flatten ++ ')' :: s.returnType.toList)) := by
  have hopen : "(".toList = ['('] := rfl
  have hclose : ")".toList = [')'] := rfl
  simp only [id, String.toList_append, String.toList_join, hopen, hclose, List.append_assoc,
    List.cons_append, List.nil_append, List.flatMap_def]

/-- **Well-formed signatures with the same id are the same**: the class ends at the first semicolon,
the name at the next opening parenthesis, and the parameters where no descriptor starts. -/
theorem eq_of_id_eq (hs : s.IsWellFormed) (ht : t.IsWellFormed) (heq : s.id = t.id) : s = t := by
  have htext := congrArg (fun i : MethodId ↦ i.text.toList) heq
  simp only [toList_id] at htext
  obtain ⟨hclass, htail⟩ := (IsDescriptor.reference hs.definingClass).append_inj
    (.reference ht.definingClass) htext
  have hsplit := splitFirst?_eq_some.2 ⟨htail, ht.name⟩
  rw [splitFirst?_eq_some.2 ⟨rfl, hs.name⟩, Option.some.injEq, Prod.mk.injEq] at hsplit
  obtain ⟨hname, hrest⟩ := hsplit
  obtain ⟨hparameters, hreturnType⟩ := eq_of_flatten_append
    (List.forall_mem_map.2 hs.parameters) (List.forall_mem_map.2 ht.parameters) hrest
  have hinj : Function.Injective String.toList := fun _ _ ↦ String.toList_injective
  cases s
  cases t
  rw [Signature.mk.injEq]
  exact ⟨hinj hclass, hinj hname, List.map_injective_iff.2 hinj hparameters, hinj hreturnType⟩

/-- What is no row of descriptors may be cut elsewhere. -/
example : id ⟨"La;", "f", ["I", "J"], "V"⟩ = id ⟨"La;", "f", ["IJ"], "V"⟩ := by decide

end Signature

/-! ### Signatures in an index -/

namespace Index

variable {methods : List Method}

/-- **There is an id for every signature**, in the same order. -/
theorem eraseDups_map_id_eq (h : ∀ m ∈ methods, m.signature.IsWellFormed) :
    (methods.map Method.id).eraseDups =
      (methods.map Method.signature).eraseDups.map Signature.id := by
  rw [← eraseDups_map, List.map_map]
  · rfl
  · simp only [List.forall_mem_map]
    exact fun m hm m' hm' heq ↦ Signature.eq_of_id_eq (h m hm) (h m' hm') heq

/-- Every record has a slot. -/
theorem exists_slot_build {m : Method} (hm : m ∈ methods) (settings : Settings) :
    ∃ slot, (build methods settings).slot m.id = .ok slot := by
  have hmem : m.id ∈ (Roster.ofMethods settings methods).entries.toList.map Entry.id := by
    rw [Roster.map_id_ofMethods, List.mem_eraseDups]
    exact List.mem_map_of_mem hm
  obtain ⟨slot, hslot⟩ := (Roster.describes_ofMethods settings methods).mem_map_id_iff.1 hmem
  exact ⟨slot, slot_eq_ok_iff.2 hslot⟩

/-- **Ids tell well-formed signatures apart.** Records with the same id have the same signature. So
in the index of a corpus no two records with different signatures share a slot, and the methods are
the different signatures, in order of first occurrence. -/
theorem ids_tell_signatures_apart :
    (∀ m m' : Method, m.signature.IsWellFormed → m'.signature.IsWellFormed → m.id = m'.id →
      m.definingClass = m'.definingClass ∧ m.name = m'.name ∧ m.parameters = m'.parameters ∧
        m.returnType = m'.returnType) ∧
    ∀ (methods : List Method) (settings : Settings), (∀ m ∈ methods, m.signature.IsWellFormed) →
      (∀ m ∈ methods, ∃ slot, (build methods settings).slot m.id = .ok slot ∧
        ∀ m' ∈ methods, (build methods settings).slot m'.id = .ok slot →
          m'.signature = m.signature) ∧
      (build methods settings).ids =
        (methods.map Method.signature).eraseDups.map Signature.id ∧
      (build methods settings).size = (methods.map Method.signature).eraseDups.length := by
  refine ⟨fun m m' hm hm' heq ↦ Signature.mk.inj (Signature.eq_of_id_eq hm hm' heq),
    fun methods settings h ↦ ⟨fun m hm ↦ ?_, ?_, ?_⟩⟩
  · obtain ⟨slot, hslot⟩ := exists_slot_build hm settings
    refine ⟨slot, hslot, fun m' hm' hslot' ↦ ?_⟩
    have hid : m'.id = m.id := (presents_build methods settings).slots_inj
      (slot_eq_ok_iff.1 hslot') (slot_eq_ok_iff.1 hslot)
    exact Signature.eq_of_id_eq (h m' hm') (h m hm) hid
  · rw [← eraseDups_map_id_eq h]
    exact Roster.map_id_ofMethods settings methods
  · rw [size_build, eraseDups_map_id_eq h, List.length_map]

/-- Two methods of one name, whose types hold a parenthesis, and a second record of the first. -/
def overloadedMethods : List Method :=
  [⟨"La;", "f", 1, "V", ["[I", "Lb)c;"], [], []⟩,
    ⟨"La;", "f", 1, "V", ["[I", "Lb)c;", "J"], [], []⟩,
    ⟨"La;", "f", 9, "V", ["[I", "Lb)c;"], [], ["s"]⟩]

/-- The case of two overloaded methods. -/
theorem ids_tell_signatures_apart_overloadedMethods :
    (∀ m ∈ overloadedMethods, m.signature.IsWellFormed) ∧
    (∀ m ∈ overloadedMethods, ∀ m' ∈ overloadedMethods, m.id = m'.id →
      m.definingClass = m'.definingClass ∧ m.name = m'.name ∧ m.parameters = m'.parameters ∧
        m.returnType = m'.returnType) ∧
    (∀ m ∈ overloadedMethods, ∃ slot, (build overloadedMethods {}).slot m.id = .ok slot ∧
      ∀ m' ∈ overloadedMethods, (build overloadedMethods {}).slot m'.id = .ok slot →
        m'.signature = m.signature) ∧
    (build overloadedMethods {}).size = 2 := by
  have hclass : IsClassDescriptor "La;".toList := ⟨['a'], by decide, rfl⟩
  have harray : IsDescriptor "[I".toList := .array (.primitive (by decide))
  have hreference : IsDescriptor "Lb)c;".toList := .reference ⟨"b)c".toList, by decide, rfl⟩
  have hprimitive : IsDescriptor "J".toList := .primitive (by decide)
  have hrow {ps : List String} (hps : ∀ p ∈ ps, IsDescriptor p.toList) :
      ∀ p ∈ "[I" :: "Lb)c;" :: ps, IsDescriptor p.toList :=
    List.forall_mem_cons.2 ⟨harray, List.forall_mem_cons.2 ⟨hreference, hps⟩⟩
  have hwell : ∀ m ∈ overloadedMethods, m.signature.IsWellFormed := by
    simp only [overloadedMethods, List.forall_mem_cons]
    exact ⟨⟨hclass, by decide, hrow nofun⟩,
      ⟨hclass, by decide, hrow (List.forall_mem_singleton.2 hprimitive)⟩,
      ⟨hclass, by decide, hrow nofun⟩, nofun⟩
  obtain ⟨hid, hindex⟩ := ids_tell_signatures_apart
  obtain ⟨hslot, -, hsize⟩ := hindex overloadedMethods {} hwell
  exact ⟨hwell, fun m hm m' hm' ↦ hid m m' (hwell m hm) (hwell m' hm'), hslot, hsize⟩

end Index

end MethodFingerprint
