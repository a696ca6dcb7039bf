import MethodFingerprint.AccessFlag
import Mathlib.Data.List.Pairwise

/-!
# Masks and their flags

Every flag is one bit (`AccessFlag.exists_bit_eq`), so a mask either has all of a flag or nothing of
it. Encoding the flags that were decoded from a mask is therefore cutting the mask down to the bits
of all flags (`AccessFlag.encode_decode`), which are all that decoding looks at
(`AccessFlag.decode_and_knownBits`). What is cut off are the unknown bits.

In the other direction, no two flags share a bit (`AccessFlag.bit_and_bit_of_ne`), so a mask that
was put together from flags has the bit of a flag exactly if the flag was among them
(`AccessFlag.encode_and_bit_ne_zero_iff`). Decoding it lists these flags again, in canonical order.
-/

namespace MethodFingerprint.AccessFlag

variable {flag flag' : AccessFlag}

/-- A flag is a power of two. -/
theorem exists_bit_eq (flag : AccessFlag) : ∃ i, flag.bit.toBitVec = BitVec.twoPow 32 i := by
  cases flag
  case isPublic => exact ⟨0, rfl⟩
  case isPrivate => exact ⟨1, rfl⟩
  case isProtected => exact ⟨2, rfl⟩
  case isStatic => exact ⟨3, rfl⟩
  case isFinal => exact ⟨4, rfl⟩
  case isSynchronized => exact ⟨5, rfl⟩
  case isBridge => exact ⟨6, rfl⟩
  case isVarargs => exact ⟨7, rfl⟩
  case isNative => exact ⟨8, rfl⟩
  case isAbstract => exact ⟨10, rfl⟩
  case isStrictfp => exact ⟨11, rfl⟩
  case isSynthetic => exact ⟨12, rfl⟩
  case isConstructor => exact ⟨16, rfl⟩
  case isDeclaredSynchronized => exact ⟨17, rfl⟩

/-- **A mask has all of a flag or nothing of it.** -/
theorem and_bit_of_ne_zero {mask : UInt32} {flag : AccessFlag} (h : mask &&& flag.bit ≠ 0) :
    mask &&& flag.bit = flag.bit := by
  obtain ⟨i, hi⟩ := flag.exists_bit_eq
  have hand := BitVec.and_twoPow mask.toBitVec i
  rw [← hi] at hand
  split at hand
  · exact UInt32.toBitVec_inj.1 hand
  · exact absurd (UInt32.toBitVec_inj.1 hand) h

/-- The mask of flags is put together bit by bit. -/
@[simp] theorem encode_cons (flag : AccessFlag) (flags : List AccessFlag) :
    encode (flag :: flags) = flag.bit ||| encode flags := by
  have hfoldl (mask : UInt32) : flags.foldl (fun mask flag ↦ mask ||| flag.bit) mask =
      mask ||| encode flags := by
    unfold encode
    induction flags generalizing mask with
    | nil => exact UInt32.or_zero.symm
    | cons flag flags ih =>
      rw [List.foldl_cons, List.foldl_cons, ih, ih (0 ||| flag.bit), UInt32.zero_or,
        UInt32.or_assoc]
  show (flags.foldl (fun mask flag ↦ mask ||| flag.bit) (0 ||| flag.bit)) = _
  rw [hfoldl, UInt32.zero_or]

theorem and_or_distrib (mask a b : UInt32) : mask &&& (a ||| b) = mask &&& a ||| mask &&& b :=
  UInt32.toBitVec_inj.1 BitVec.and_or_distrib_left

/-- **Picking the flags of a mask out of a list** is cutting the mask of the list down. -/
theorem encode_filter (mask : UInt32) (flags : List AccessFlag) :
    encode (flags.filter fun flag ↦ mask &&& flag.bit != 0) = mask &&& encode flags := by
  induction flags with
  | nil => exact UInt32.and_zero.symm
  | cons flag flags ih =>
    rw [encode_cons, and_or_distrib, ← ih]
    -- a flag that is picked is in the mask as a whole
    by_cases h : mask &&& flag.bit = 0
    · rw [List.filter_cons_of_neg (by simp [h]), h, UInt32.zero_or]
    · rw [List.filter_cons_of_pos (by simp [h]), encode_cons, and_bit_of_ne_zero h]

/-- The bits that some flag accounts for. -/
def knownBits : UInt32 :=
  all.foldl (fun known flag ↦ known ||| flag.bit) 0

example : knownBits = 0x31dff := by decide

/-- The other bits are the unknown ones. -/
theorem unknownBits_eq (mask : UInt32) : unknownBits mask = mask &&& ~~~knownBits :=
  rfl

/-- **The flags of a mask make up the mask**, but for the unknown bits. -/
theorem encode_decode (mask : UInt32) : encode (decode mask) = mask &&& knownBits :=
  encode_filter mask all

/-- The bit of a flag is known. -/
theorem knownBits_and_bit (flag : AccessFlag) : knownBits &&& flag.bit = flag.bit := by
  cases flag <;> decide

/-- **Unknown bits decode to nothing.** -/
theorem decode_and_knownBits (mask : UInt32) : decode (mask &&& knownBits) = decode mask := by
  refine List.filter_congr fun flag _ ↦ ?_
  rw [UInt32.and_assoc, knownBits_and_bit]

/-- **A mask of flags has no unknown bits.** -/
theorem encode_and_knownBits (flags : List AccessFlag) :
    encode flags &&& knownBits = encode flags := by
  induction flags with
  | nil => exact UInt32.zero_and
  | cons flag flags ih =>
    rw [encode_cons, UInt32.and_comm, and_or_distrib, knownBits_and_bit,
      UInt32.and_comm knownBits, ih]

/-- A mask that is cut down to the bits of all flags has no unknown ones. -/
theorem unknownBits_and_knownBits (mask : UInt32) : unknownBits (mask &&& knownBits) = 0 := by
  rw [unknownBits_eq, UInt32.and_assoc, UInt32.and_not_self, UInt32.and_zero]

/-! ### Flags of a list -/

theorem bit_ne_zero (flag : AccessFlag) : flag.bit ≠ 0 := by
  cases flag <;> decide

/-- **Different flags share no bit.** -/
theorem bit_and_bit_of_ne (h : flag ≠ flag') : flag.bit &&& flag'.bit = 0 := by
  have hall : all.Pairwise fun f g ↦ f.bit &&& g.bit = 0 := by decide
  have hsymm : Std.Symm fun f g : AccessFlag ↦ f.bit &&& g.bit = 0 :=
    ⟨fun f g hfg ↦ (UInt32.and_comm g.bit f.bit).trans hfg⟩
  exact hall.forall (mem_all flag) (mem_all flag') h

/-- **A mask has a flag exactly if it was put together from it.** -/
theorem encode_and_bit_ne_zero_iff (flags : List AccessFlag) (flag : AccessFlag) :
    encode flags &&& flag.bit ≠ 0 ↔ flag ∈ flags := by
  induction flags with
  | nil => simp [encode]
  | cons g flags ih =>
    rw [encode_cons, UInt32.and_comm, and_or_distrib, UInt32.and_comm flag.bit (encode flags),
      List.mem_cons, ← ih]
    by_cases hg : flag = g
    · subst hg
      rw [UInt32.and_self]
      simp [bit_ne_zero]
    · rw [bit_and_bit_of_ne hg, UInt32.zero_or]
      exact (or_iff_right hg).symm

/-- **A list of flags is decoded again**: in canonical order, each flag once. -/
theorem decode_encode (flags : List AccessFlag) :
    decode (encode flags) = all.filter fun flag ↦ decide (flag ∈ flags) := by
  refine List.filter_congr fun flag _ ↦ ?_
  rw [Bool.eq_iff_iff, bne_iff_ne, encode_and_bit_ne_zero_iff, decide_eq_true_iff]

/-- Flags are found under their names, one after the other. -/
theorem mapM_ofName?_map_name (flags : List AccessFlag) :
    (flags.map name).mapM ofName? = some flags := by
  induction flags with
  | nil => rfl
  | cons flag flags ih =>
    rw [List.map_cons, List.mapM_cons, ofName?_name, ih]
    rfl

/-! ### The codec -/

/-- The flags of a mask stand by rising bit, so that none is listed twice. -/
theorem pairwise_bit_lt_decode (mask : UInt32) :
    (decode mask).Pairwise fun f g ↦ f.bit < g.bit := by
  have hall : all.Pairwise fun f g ↦ f.bit < g.bit := by decide
  exact hall.sublist List.filter_sublist

/-- Known and unknown bits share nothing. -/
theorem encode_decode_and_unknownBits (mask : UInt32) :
    encode (decode mask) &&& unknownBits mask = 0 := by
  have hswap : mask &&& (mask &&& ~~~knownBits) = mask &&& ~~~knownBits := by
    rw [← UInt32.and_assoc, UInt32.and_self]
  rw [encode_decode, unknownBits_eq, UInt32.and_comm mask knownBits, UInt32.and_assoc, hswap,
    UInt32.and_comm mask, ← UInt32.and_assoc, UInt32.and_not_self, UInt32.zero_and]

/-- **Known and unknown bits make up the mask.** -/
theorem encode_decode_or_unknownBits (mask : UInt32) :
    encode (decode mask) ||| unknownBits mask = mask := by
  rw [encode_decode, unknownBits_eq, ← and_or_distrib, UInt32.or_not_self, UInt32.and_neg_one]

/-- **Masks and flags translate into each other.** A mask is divided into the mask of its flags and
the unknown bits; its flags are those whose bit is set, listed in canonical order, which is by
rising bit. A list of flags, in whatever order and with whatever repetitions, comes back from its
mask in canonical order, each flag once; and the names of the flags lead to the same mask. -/
theorem mask_codec :
    (∀ mask : UInt32, encode (decode mask) &&& unknownBits mask = 0 ∧
      encode (decode mask) ||| unknownBits mask = mask ∧
      (∀ flag, flag ∈ decode mask ↔ mask &&& flag.bit ≠ 0) ∧
      (decode mask).Sublist all ∧ (decode mask).Pairwise fun f g ↦ f.bit < g.bit) ∧
    ∀ flags : List AccessFlag,
      decode (encode flags) = (all.filter fun flag ↦ decide (flag ∈ flags)) ∧
      ((flags.map name).mapM ofName?).map encode = some (encode flags) := by
  refine ⟨fun mask ↦ ?_, fun flags ↦ ⟨decode_encode flags, ?_⟩⟩
  · exact ⟨encode_decode_and_unknownBits mask, encode_decode_or_unknownBits mask,
      fun _ ↦ mem_decode, List.filter_sublist, pairwise_bit_lt_decode mask⟩
  · rw [mapM_ofName?_map_name, Option.map_some]

/-- Bits between the flags are unknown, and repetitions are lost. -/
example : decode 0x2201 = [isPublic] ∧ unknownBits 0x2201 = 0x2200 ∧
    decode (encode [isFinal, isPublic, isFinal]) = [isPublic, isFinal] := by decide

end MethodFingerprint.AccessFlag
