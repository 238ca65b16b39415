import EventReadout.Proofs.Timestamp.Full

/-!
The window in which full timestamps are exact.

It reaches from the period of the previous coarse value to the period of the current one, and one
period further unless the match code turns over there. Within two periods of the current value
nothing outside the window is taken for a time inside it.
-/
namespace EventReadout.Timestamp

variable {time previous current : UInt64}

/-- The period of the match code that a timestamp lies in. -/
def index (timestamp : UInt64) : Nat := (timestamp >>> 21).toNat

theorem index_eq (timestamp : UInt64) : index timestamp = timestamp.toNat / 2 ^ 21 :=
  DataWord.toNat_shiftRight _ (by decide)

/-- The match code counts periods. -/
theorem matchCode_eq_index (timestamp : UInt64) : matchCode timestamp = index timestamp % 4 := by
  rw [matchCode_eq, index_eq]

theorem matchCode_fine (time : UInt64) : matchCode (time % 0x1000000) = index time % 4 := by
  rw [matchCode_eq, UInt64.toNat_mod, index_eq]
  change time.toNat % 2 ^ 24 / 2 ^ 21 % 4 = _
  omega

/-- Matching compares the places of two periods in a cycle of four. -/
theorem matches_fine_iff (time coarse : UInt64) :
    Matches (time % 0x1000000) coarse ↔
      index time % 4 = index coarse % 4 ∨ index time % 4 = index coarse % 4 + 1 := by
  have hfine := matchCode_fine time
  generalize time % 0x1000000 = fine at hfine ⊢
  rw [Matches, hfine, matchCode_eq_index]

/-- Times that are explained by a coarse value and the one a period before it. -/
def InWindow (time current : UInt64) : Prop :=
  index time + 1 = index current ∨ index time = index current ∨
    index time = index current + 1 ∧ matchCode current ≠ 3

instance (time current : UInt64) : Decidable (InWindow time current) :=
  inferInstanceAs (Decidable (_ ∨ _ ∨ _))

theorem highMask_add_fine {coarse : UInt64} (htime : time.toNat < 2 ^ 52)
    (h : index coarse / 8 = index time / 8) :
    (coarse &&& highMask) + time % 0x1000000 = time := by
  rw [index_eq, index_eq] at h
  have hfine : (time % 0x1000000).toNat = time.toNat % 2 ^ 24 := UInt64.toNat_mod _ _
  rw [← UInt64.toNat_inj, UInt64.toNat_add, toNat_and_highMask, hfine]
  omega

/-- Only the current value matches times from its own period on, and only the previous one a time
before. -/
theorem full_of_inWindow (hperiod : index current = index previous + 1)
    (htime : time.toNat < 2 ^ 52) (h : InWindow time current) :
    full (time % 0x1000000) previous current = .ok time := by
  unfold InWindow at h
  rw [matchCode_eq_index] at h
  rcases h with hlate | hwithin | ⟨hearly, hcarry⟩
  · have hnot : ¬ Matches (time % 0x1000000) current := mt (matches_fine_iff _ _).1 (by omega)
    have hmatches : Matches (time % 0x1000000) previous := (matches_fine_iff _ _).2 (by omega)
    rw [full, if_neg hnot, if_pos hmatches, highMask_add_fine htime (by omega)]
  · have hmatches : Matches (time % 0x1000000) current := (matches_fine_iff _ _).2 (by omega)
    rw [full, if_pos hmatches, highMask_add_fine htime (by omega)]
  · have hmatches : Matches (time % 0x1000000) current := (matches_fine_iff _ _).2 (by omega)
    rw [full, if_pos hmatches, highMask_add_fine htime (by omega)]

/-- Codes that are two periods off, or that have turned over, match neither value. -/
theorem full_of_not_inWindow (hperiod : index current = index previous + 1)
    (hnear : index time ≤ index current + 2 ∧ index current ≤ index time + 2)
    (h : ¬ InWindow time current) :
    full (time % 0x1000000) previous current =
      .error ⟨time % 0x1000000, current, previous⟩ := by
  unfold InWindow at h
  rw [matchCode_eq_index] at h
  have hnot : ¬ Matches (time % 0x1000000) current := mt (matches_fine_iff _ _).1 (by omega)
  have hneither : ¬ Matches (time % 0x1000000) previous := mt (matches_fine_iff _ _).1 (by omega)
  rw [full, if_neg hnot, if_neg hneither]

/--
Of the times within two periods of the current coarse value those in the period of that value, of
the previous one, or of the one to come are completed exactly, the last of them as long as the match
code of the current value is not 3. All others are mismatches, and no time is taken for another.
-/
theorem full_exact_in_window (hperiod : index current = index previous + 1)
    (htime : time.toNat < 2 ^ 52)
    (hnear : index time ≤ index current + 2 ∧ index current ≤ index time + 2) :
    (full (time % 0x1000000) previous current =
      if index time = index previous ∨ index time = index current ∨
          index time = index current + 1 ∧ matchCode current ≠ 3 then .ok time
      else .error ⟨time % 0x1000000, current, previous⟩) ∧
    ∀ value, full (time % 0x1000000) previous current = .ok value → value = time := by
  have hwindow : InWindow time current ↔ index time = index previous ∨
      index time = index current ∨ index time = index current + 1 ∧ matchCode current ≠ 3 := by
    unfold InWindow
    omega
  rw [← if_congr hwindow rfl rfl]
  by_cases h : InWindow time current
  · have hfull := full_of_inWindow hperiod htime h
    rw [if_pos h, hfull]
    exact ⟨rfl, fun value hvalue => (Except.ok.inj hvalue).symm⟩
  · have hfull := full_of_not_inWindow hperiod hnear h
    rw [if_neg h, hfull]
    exact ⟨rfl, fun value hvalue => nomatch hvalue⟩

/-- One period early, before the match code turns over and when it does: there the fine part turns
over as well, and the current value would complete it to a time that is 2 ^ 24 too low. -/
theorem full_exact_at_turnover :
    full (0xE00001 % 0x1000000) 0xA00000 0xC00000 = .ok 0xE00001 ∧
      full (0x1000001 % 0x1000000) 0xC00000 0xE00000 = .error ⟨1, 0xE00000, 0xC00000⟩ := by
  have hbefore : index 0xC00000 = index 0xA00000 + 1 := by decide
  have hturnover : index 0xE00000 = index 0xC00000 + 1 := by decide
  constructor
  · have htime : (0xE00001 : UInt64).toNat < 2 ^ 52 := by decide
    rw [(full_exact_in_window hbefore htime (by decide)).1]
    decide
  · have htime : (0x1000001 : UInt64).toNat < 2 ^ 52 := by decide
    rw [(full_exact_in_window hturnover htime (by decide)).1]
    decide

end EventReadout.Timestamp
