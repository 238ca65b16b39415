import EventReadout.Proofs.Word.Data
import EventReadout.Timestamp.Full

/-! Full timestamps as numbers: a fine value is completed by the coarse bits above it. -/
namespace EventReadout.Timestamp

theorem matchCode_eq (timestamp : UInt64) : matchCode timestamp = timestamp.toNat / 2 ^ 21 % 4 := by
  unfold matchCode
  rw [UInt64.toNat_and, DataWord.toNat_shiftRight _ (by decide)]
  exact Nat.and_two_pow_sub_one_eq_mod _ 2

/-- The coarse bits above the 24 of a fine value. -/
theorem toNat_and_highMask (coarse : UInt64) :
    (coarse &&& highMask).toNat = coarse.toNat / 2 ^ 24 % 2 ^ 28 * 2 ^ 24 := by
  rw [UInt64.toNat_and]
  exact and_mask _ 24 28

/-- A time in the period of the current coarse value is completed by it, whatever was before. -/
theorem full_of_same_period {time : Nat} {previous current : UInt64} (htime : time < 2 ^ 52)
    (h : current.toNat / 2 ^ 21 = time / 2 ^ 21) :
    full (UInt64.ofNat (time % 2 ^ 24)) previous current = .ok (UInt64.ofNat time) := by
  have hsize : UInt64.size = 2 ^ 64 := rfl
  have hfine : (UInt64.ofNat (time % 2 ^ 24)).toNat = time % 2 ^ 24 :=
    UInt64.toNat_ofNat_of_lt' (by omega)
  have hfull : (UInt64.ofNat time).toNat = time := UInt64.toNat_ofNat_of_lt' (by omega)
  have hmatches : Matches (UInt64.ofNat (time % 2 ^ 24)) current := by
    left
    rw [matchCode_eq, matchCode_eq, hfine, h]
    omega
  rw [full, if_pos hmatches, Except.ok.injEq, ← UInt64.toNat_inj, UInt64.toNat_add,
    toNat_and_highMask, hfine, hfull]
  omega

end EventReadout.Timestamp
