import EventReadout.Timestamp.Coarse
import Mathlib.Algebra.Group.Nat.Defs
import Mathlib.Data.List.Basic

/-!
The pair of coarse timestamps after any number of broadcasts.

It is made up of the last two of them, and what came before is forgotten. A last but one broadcast
of zero is not told from none at all, so that the previous value is then taken one period back, as
after the first broadcast.
-/
namespace EventReadout.CoarseTimestamps

/-- Broadcasts one after the other. -/
def observeAll (c : CoarseTimestamps) (values : List UInt64) : CoarseTimestamps :=
  values.foldl observe c

theorem observeAll_append (c : CoarseTimestamps) (values later : List UInt64) :
    c.observeAll (values ++ later) = (c.observeAll values).observeAll later :=
  List.foldl_append

theorem toNat_previous_observe (c : CoarseTimestamps) (coarse : UInt64) :
    (c.observe coarse).previous.toNat =
      if c.current = 0 then coarse.toNat - 2 ^ 21 else c.current.toNat := by
  have hperiod : Timestamp.period.toNat = 2 ^ 21 := rfl
  simp only [observe]
  by_cases hnone : c.current = 0
  · rw [if_pos hnone, if_pos hnone]
    by_cases hlow : coarse < Timestamp.period
    · rw [UInt64.lt_iff_toNat_lt, hperiod] at hlow
      rw [if_pos (UInt64.lt_iff_toNat_lt.2 hlow), Nat.sub_eq_zero_of_le (Nat.le_of_lt hlow)]
      rfl
    · have hle := UInt64.not_lt.1 hlow
      rw [if_neg hlow, UInt64.toNat_sub_of_le _ _ hle, hperiod]
  · rw [if_neg hnone, if_neg hnone]

/-- The second of two broadcasts finds of what was there before only the first. -/
theorem observe_observe (c c' : CoarseTimestamps) (before last : UInt64) :
    (c.observe before).observe last = (c'.observe before).observe last := rfl

/--
The current value is the last broadcast. With an earlier broadcast the previous value is the one
immediately before, exactly if that one is not zero or there is nothing to take off the last. With
none, it is the last broadcast less one period, not below zero.
-/
theorem previous_is_last_but_one_iff (earlier : List UInt64) (last : UInt64) :
    let pair : CoarseTimestamps := observeAll {} (earlier ++ [last])
    pair.current = last ∧
      match earlier.getLast? with
      | none => pair.previous.toNat = last.toNat - 2 ^ 21
      | some before =>
        pair.previous.toNat = (if before = 0 then last.toNat - 2 ^ 21 else before.toNat) ∧
          (pair.previous = before ↔ before ≠ 0 ∨ last.toNat ≤ 2 ^ 21) := by
  intro pair
  have hpair : pair = (({} : CoarseTimestamps).observeAll earlier).observe last :=
    observeAll_append {} earlier [last]
  have hprevious := toNat_previous_observe (({} : CoarseTimestamps).observeAll earlier) last
  rw [← hpair] at hprevious
  refine ⟨by rw [hpair]; rfl, ?_⟩
  rcases List.eq_nil_or_concat' earlier with rfl | ⟨front, before, rfl⟩
  · have hnone : (({} : CoarseTimestamps).observeAll []).current = 0 := rfl
    rw [if_pos hnone] at hprevious
    rw [List.getLast?_nil]
    exact hprevious
  · have hcurrent : (({} : CoarseTimestamps).observeAll (front ++ [before])).current = before := by
      rw [observeAll_append]
      rfl
    rw [hcurrent] at hprevious
    rw [List.getLast?_concat]
    refine ⟨hprevious, ?_⟩
    rw [← UInt64.toNat_inj, hprevious]
    by_cases hzero : before = 0
    · subst hzero
      simp only [if_pos, UInt64.toNat_zero, ne_eq, not_true_eq_false, false_or]
      omega
    · simp [hzero]

/-- Zero, and then a value two periods later: the pair has lost the zero, and what came late from
its period is a mismatch, although the last two broadcasts explain it. -/
theorem zero_broadcast_taken_for_none :
    let pair : CoarseTimestamps := observeAll {} [0, 0x400000]
    pair.current = 0x400000 ∧ pair.previous = 0x200000 ∧
      pair.resolve 0x10 = .error ⟨0x10, 0x400000, 0x200000⟩ ∧
      Timestamp.full 0x10 0 0x400000 = .ok 0x10 ∧
      ¬ ∀ (earlier : List UInt64) (before last : UInt64),
        (({} : CoarseTimestamps).observeAll (earlier ++ [before, last])).previous = before := by
  refine ⟨by decide, by decide, by decide, by decide, fun h => ?_⟩
  exact absurd (h [] 0 0x400000) (by decide)

end EventReadout.CoarseTimestamps
