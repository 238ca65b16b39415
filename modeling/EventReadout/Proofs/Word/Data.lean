import EventReadout.Word.Data
import Mathlib.Data.Nat.Bitwise

/-! Payload words as numbers: their fields are digits, and classifying a word reads them back. -/
namespace EventReadout

/-- A mask of `width` bits from bit `start` on keeps those digits. -/
theorem and_mask (n start width : Nat) :
    n &&& (2 ^ width - 1) * 2 ^ start = n / 2 ^ start % 2 ^ width * 2 ^ start := by
  apply Nat.eq_of_testBit_eq
  intro i
  rw [Nat.testBit_and, Nat.testBit_mul_two_pow, Nat.testBit_mul_two_pow,
    Nat.testBit_two_pow_sub_one, Nat.testBit_mod_two_pow, Nat.testBit_div_two_pow]
  by_cases hi : start ≤ i
  · rw [Nat.sub_add_cancel hi, Bool.and_comm, Bool.and_assoc]
  · simp [hi]

namespace DataWord

variable {word : UInt64}

/-- Coarse timestamps lose what is beyond 52 bits and below the resolution. -/
theorem toNat_and_coarseMask (word : UInt64) :
    (word &&& coarseMask).toNat = word.toNat / 2 ^ 3 % 2 ^ 49 * 2 ^ 3 := by
  rw [UInt64.toNat_and]
  exact and_mask _ 3 49

theorem toNat_and_fineMask (word : UInt64) : (word &&& fineMask).toNat = word.toNat % 2 ^ 24 := by
  rw [UInt64.toNat_and]
  exact Nat.and_two_pow_sub_one_eq_mod _ 24

theorem toNat_and_energyMask (word : UInt64) :
    (word &&& energyMask).toNat = word.toNat % 2 ^ 14 := by
  rw [UInt64.toNat_and]
  exact Nat.and_two_pow_sub_one_eq_mod _ 14

theorem toNat_and_typeMask (word : UInt64) : (word &&& typeMask).toNat = word.toNat % 2 ^ 6 := by
  rw [UInt64.toNat_and]
  exact Nat.and_two_pow_sub_one_eq_mod _ 6

theorem isControl_iff (w : DataWord) : w.isControl = true ↔ 2 ^ 63 ≤ w.raw.toNat := by
  have hlt := w.raw.toNat_lt
  have hflag : (w.raw &&& controlFlag).toNat = w.raw.toNat / 2 ^ 63 % 2 ^ 1 * 2 ^ 63 := by
    rw [UInt64.toNat_and]
    exact and_mask _ 63 1
  unfold isControl
  rw [bne_iff_ne, ne_eq, ← UInt64.toNat_inj, hflag]
  change ¬ w.raw.toNat / 2 ^ 63 % 2 ^ 1 * 2 ^ 63 = 0 ↔ _
  omega

theorem toNat_shiftRight (word : UInt64) {shift : UInt64} (h : shift.toNat < 64) :
    (word >>> shift).toNat = word.toNat / 2 ^ shift.toNat := by
  rw [UInt64.toNat_shiftRight, Nat.shiftRight_eq_div_pow, Nat.mod_eq_of_lt h]

theorem toNat_shiftLeft (word : UInt64) {shift : UInt64} (h : shift.toNat < 64)
    (hroom : word.toNat * 2 ^ shift.toNat < 2 ^ 64) :
    (word <<< shift).toNat = word.toNat * 2 ^ shift.toNat := by
  rw [UInt64.toNat_shiftLeft, Nat.shiftLeft_eq, Nat.mod_eq_of_lt h, Nat.mod_eq_of_lt hroom]

/-- Digits side by side are a sum. -/
theorem toNat_or_of_lt {high low : UInt64} (shift : Nat) (hlow : low.toNat < 2 ^ shift)
    (hhigh : high.toNat % 2 ^ shift = 0) : (high ||| low).toNat = high.toNat + low.toNat := by
  have hsplit : high.toNat = (high.toNat / 2 ^ shift) <<< shift := by
    rw [Nat.shiftLeft_eq, Nat.div_mul_cancel (Nat.dvd_of_mod_eq_zero hhigh)]
  rw [UInt64.toNat_or, hsplit, Nat.shiftLeft_add_eq_or_of_lt hlow]

/-- An announcement of a coarse timestamp carries it behind its type. -/
theorem toNat_extendedTimestamp (coarse : UInt64) :
    (extendedTimestamp coarse).raw.toNat = 2 ^ 63 + coarse.toNat / 2 ^ 3 % 2 ^ 49 * 2 ^ 3 := by
  have hmasked := toNat_and_coarseMask coarse
  have hpayload : ((coarse &&& coarseMask) &&& payloadMask).toNat =
      (coarse &&& coarseMask).toNat % 2 ^ 58 := by
    rw [UInt64.toNat_and]
    exact Nat.and_two_pow_sub_one_eq_mod _ 58
  have hlow : ((coarse &&& coarseMask) &&& payloadMask).toNat < 2 ^ 63 := by omega
  have hroom : (coarse &&& coarseMask).toNat < 2 ^ 58 := by omega
  change ((0x8000000000000000 : UInt64) ||| ((coarse &&& coarseMask) &&& payloadMask)).toNat = _
  rw [toNat_or_of_lt 63 hlow rfl, hpayload, Nat.mod_eq_of_lt hroom, hmasked]
  rfl

theorem controlType?_extendedTimestamp (coarse : UInt64) :
    (extendedTimestamp coarse).controlType? = some .extendedTimestamp := by
  have hraw := toNat_extendedTimestamp coarse
  have hcontrol : (extendedTimestamp coarse).isControl = true := by
    rw [isControl_iff]
    omega
  have htype : (((extendedTimestamp coarse).raw >>> 58) &&& typeMask).toUInt8 = 0x20 := by
    rw [← UInt8.toNat_inj, UInt64.toNat_toUInt8, toNat_and_typeMask,
      toNat_shiftRight _ (by decide)]
    change _ / 2 ^ 58 % 2 ^ 6 % 2 ^ 8 = 32
    omega
  rw [controlType?, if_pos hcontrol, htype]
  rfl

theorem classify_extendedTimestamp (coarse : UInt64) :
    (extendedTimestamp coarse).classify = .extendedTimestamp (coarse &&& coarseMask) := by
  have hraw := toNat_extendedTimestamp coarse
  have hpayload : (extendedTimestamp coarse).raw &&& coarseMask = coarse &&& coarseMask := by
    rw [← UInt64.toNat_inj, toNat_and_coarseMask, toNat_and_coarseMask]
    omega
  rw [classify, controlType?_extendedTimestamp, hpayload]

theorem toNat_event (position : UInt32) (fine : UInt64) (energy : UInt16) :
    (event position fine energy).raw.toNat =
      position.toNat % 2 ^ 24 * 2 ^ 39 + fine.toNat % 2 ^ 24 * 2 ^ 14 + energy.toNat % 2 ^ 14 := by
  have hposition : (position.toUInt64 &&& positionMask).toNat = position.toNat % 2 ^ 24 :=
    toNat_and_fineMask _
  have hfine := toNat_and_fineMask fine
  have henergy : (energy.toUInt64 &&& energyMask).toNat = energy.toNat % 2 ^ 14 :=
    toNat_and_energyMask _
  have hhigh : ((position.toUInt64 &&& positionMask) <<< 39).toNat =
      position.toNat % 2 ^ 24 * 2 ^ 39 := by
    rw [toNat_shiftLeft _ (by decide), hposition]
    · rfl
    · rw [hposition]
      change _ * 2 ^ 39 < 2 ^ 64
      omega
  have hmiddle : ((fine &&& fineMask) <<< 14).toNat = fine.toNat % 2 ^ 24 * 2 ^ 14 := by
    rw [toNat_shiftLeft _ (by decide), hfine]
    · rfl
    · rw [hfine]
      change _ * 2 ^ 14 < 2 ^ 64
      omega
  have hupper :
      (((position.toUInt64 &&& positionMask) <<< 39) ||| ((fine &&& fineMask) <<< 14)).toNat =
        position.toNat % 2 ^ 24 * 2 ^ 39 + fine.toNat % 2 ^ 24 * 2 ^ 14 := by
    rw [toNat_or_of_lt 39, hhigh, hmiddle]
    · omega
    · omega
  unfold event
  dsimp only
  rw [toNat_or_of_lt 14, hupper, henergy]
  · omega
  · omega

theorem classify_event (position : UInt32) (fine : UInt64) (energy : UInt16) :
    (event position fine energy).classify =
      .event (fine % 0x1000000) (position % 0x1000000) (energy % 0x4000) := by
  have hraw := toNat_event position fine energy
  have hevent : ¬ (event position fine energy).isControl = true := by
    rw [isControl_iff]
    omega
  have hfine : ((event position fine energy).raw >>> 14) &&& fineMask = fine % 0x1000000 := by
    rw [← UInt64.toNat_inj, toNat_and_fineMask, toNat_shiftRight _ (by decide), UInt64.toNat_mod]
    change _ / 2 ^ 14 % 2 ^ 24 = fine.toNat % 2 ^ 24
    omega
  have hposition : (((event position fine energy).raw >>> 39) &&& positionMask).toUInt32 =
      position % 0x1000000 := by
    rw [← UInt32.toNat_inj, UInt64.toNat_toUInt32, UInt32.toNat_mod]
    have hmasked : (((event position fine energy).raw >>> 39) &&& positionMask).toNat =
        ((event position fine energy).raw >>> 39).toNat % 2 ^ 24 := toNat_and_fineMask _
    rw [hmasked, toNat_shiftRight _ (by decide)]
    change _ / 2 ^ 39 % 2 ^ 24 % 2 ^ 32 = position.toNat % 2 ^ 24
    omega
  have henergy : ((event position fine energy).raw &&& energyMask).toUInt16 = energy % 0x4000 := by
    rw [← UInt16.toNat_inj, UInt64.toNat_toUInt16, UInt16.toNat_mod, toNat_and_energyMask]
    change _ % 2 ^ 14 % 2 ^ 16 = energy.toNat % 2 ^ 14
    omega
  unfold classify controlType?
  rw [if_neg hevent]
  dsimp only
  rw [hfine, hposition, henergy]

end DataWord
end EventReadout
