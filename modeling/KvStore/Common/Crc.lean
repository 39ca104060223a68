import KvStore.Common.Bytes

/-!
# CRC-32C

The checksum of `hash/crc32` with the Castagnoli table, one bit at a time.

* `crcUpdate_append`: a checksum is computed piece by piece.
* `checksum_ne`: no change to a single byte leaves it as it was. Division by the
  polynomial is undone bit by bit, since the bit that a step shifts out is the top bit of
  its result.
-/

namespace KvStore.Common

/-- One bit of the reflected Castagnoli polynomial division. -/
def crcBit (crc : UInt32) : UInt32 :=
  if crc &&& 1 = 1 then (crc >>> 1) ^^^ 0x82F63B78 else crc >>> 1

/-- One byte of it. -/
def crcByte (crc : UInt32) (b : UInt8) : UInt32 :=
  crcBit (crcBit (crcBit (crcBit (crcBit (crcBit (crcBit (crcBit (crc ^^^ b.toUInt32))))))))

/-- `crc32.Checksum(data, castagnoli)`. -/
def checksum (data : Bytes) : UInt32 := (data.foldl crcByte 0xFFFFFFFF) ^^^ 0xFFFFFFFF

/-- `crc32.Update(crc, castagnoli, data)`. -/
def crcUpdate (crc : UInt32) (data : Bytes) : UInt32 :=
  data.foldl crcByte (crc ^^^ 0xFFFFFFFF) ^^^ 0xFFFFFFFF

/-! ## Piece by piece -/

theorem crcUpdate_append (crc : UInt32) (p q : Bytes) :
    crcUpdate crc (p ++ q) = crcUpdate (crcUpdate crc p) q := by
  unfold crcUpdate
  rw [List.foldl_append, UInt32.xor_assoc, UInt32.xor_self, UInt32.xor_zero]

/-! ## A changed byte -/

theorem and_one_eq_one_iff (c : UInt32) : c &&& 1 = 1 ↔ c.toBitVec.getLsbD 0 = true := by
  have hbit : c.toBitVec.getLsbD 0 = decide (c.toNat % 2 = 1) := Nat.testBit_zero c.toNat
  have hand : (c &&& 1).toNat = c.toNat % 2 := by
    rw [UInt32.toNat_and]
    exact Nat.and_one_is_mod _
  rw [hbit, decide_eq_true_iff, ← hand, ← UInt32.toNat_inj]
  rfl

/-- The bits of a step's result. -/
theorem getLsbD_crcBit (c : UInt32) (i : ℕ) :
    (crcBit c).toBitVec.getLsbD i = ((c.toBitVec.getLsbD (i + 1)) ^^
      (c.toBitVec.getLsbD 0 && (0x82F63B78#32).getLsbD i)) := by
  unfold crcBit
  by_cases h : c &&& 1 = 1
  · rw [if_pos h, (and_one_eq_one_iff c).mp h, Bool.true_and, UInt32.toBitVec_xor,
      BitVec.getLsbD_xor, UInt32.toBitVec_shiftRight]
    simp [Nat.add_comm]
  · rw [if_neg h, Bool.eq_false_iff.mpr (mt (and_one_eq_one_iff c).mpr h), Bool.false_and,
      Bool.xor_false, UInt32.toBitVec_shiftRight]
    simp [Nat.add_comm]

theorem crcBit_injective : Function.Injective crcBit := by
  intro c c' h
  have hbit : ∀ i, (crcBit c).toBitVec.getLsbD i = (crcBit c').toBitVec.getLsbD i := by
    intro i
    rw [h]
  -- the top bit of the result is the bit shifted out
  have hlow : c.toBitVec.getLsbD 0 = c'.toBitVec.getLsbD 0 := by
    have htop := hbit 31
    rw [getLsbD_crcBit, getLsbD_crcBit] at htop
    simpa using htop
  apply UInt32.toBitVec_inj.mp
  apply BitVec.eq_of_getLsbD_eq
  intro i _
  cases i with
  | zero => exact hlow
  | succ i =>
    have hnext := hbit i
    rw [getLsbD_crcBit, getLsbD_crcBit, hlow] at hnext
    exact Bool.xor_left_inj.mp hnext

theorem crcByte_injective (b : UInt8) : Function.Injective fun crc => crcByte crc b := by
  intro c c' h
  have hx : crcByte c b = crcByte c' b := h
  unfold crcByte at hx
  iterate 8 replace hx := crcBit_injective hx
  exact (UInt32.xor_left_inj _).mp hx

theorem crcByte_ne (crc : UInt32) {b b' : UInt8} (h : b ≠ b') : crcByte crc b ≠ crcByte crc b' := by
  intro hx
  unfold crcByte at hx
  iterate 8 replace hx := crcBit_injective hx
  have hwide : b.toUInt32 = b'.toUInt32 := (UInt32.xor_right_inj _).mp hx
  apply h
  rw [← UInt8.toUInt8_toUInt32 b, hwide, UInt8.toUInt8_toUInt32]

theorem foldl_crcByte_injective (data : Bytes) :
    Function.Injective fun crc => data.foldl crcByte crc := by
  induction data with
  | nil => exact Function.injective_id
  | cons b data ih => exact ih.comp (crcByte_injective b)

/-- A single changed byte shows. -/
theorem checksum_ne {p q : Bytes} {i : ℕ} (h : ChangedAt p q i) : checksum p ≠ checksum q := by
  obtain ⟨a, x, y, c, hne, -, rfl, rfl⟩ := h
  intro hx
  unfold checksum at hx
  rw [UInt32.xor_left_inj, List.foldl_append, List.foldl_append, List.foldl_cons,
    List.foldl_cons] at hx
  exact crcByte_ne _ hne (foldl_crcByte_injective c hx)

end KvStore.Common
