import EventReadout.Proofs.Slice.Arrivals

/-!
Ids of time slices.

Up to 256 buffers an id has two digits, the generation above the buffer. Ids then compare as their
slices do, and what a store drains comes out in the order of the ids.
-/
namespace EventReadout

namespace TimeSlice

variable {s t : TimeSlice}

/-- The digits do not overlap. -/
theorem id_eq (hs : s.buffer < 2 ^ 8) : s.id = s.wrap * 2 ^ 8 + s.buffer := by
  rw [id, ← Nat.shiftLeft_add_eq_or_of_lt hs, Nat.shiftLeft_eq]

theorem id_le_id_iff (hs : s.buffer < 2 ^ 8) (ht : t.buffer < 2 ^ 8) : s.id ≤ t.id ↔ s ≤ t := by
  rw [id_eq hs, id_eq ht, le_def]
  omega

theorem id_lt_id_iff (hs : s.buffer < 2 ^ 8) (ht : t.buffer < 2 ^ 8) : s.id < t.id ↔ s < t := by
  rw [← not_le, ← not_le, id_le_id_iff ht hs]

theorem id_eq_id_iff (hs : s.buffer < 2 ^ 8) (ht : t.buffer < 2 ^ 8) : s.id = t.id ↔ s = t := by
  rw [le_antisymm_iff, le_antisymm_iff, id_le_id_iff hs ht, id_le_id_iff ht hs]

/-- With one buffer more, two generations meet in an id. -/
example : id ⟨0, 256⟩ = id ⟨1, 0⟩ := by decide

end TimeSlice

section Sorting

variable {α : Type} {slice : α → TimeSlice}

/-- Items in the order of their ids; items of one id keep their order. -/
def sortById (slice : α → TimeSlice) (xs : List α) : List α :=
  xs.mergeSort fun x y => (slice x).id ≤ (slice y).id

theorem sortBySlice_eq_sortById (hslice : ∀ x, (slice x).buffer < 2 ^ 8) (xs : List α) :
    sortBySlice slice xs = sortById slice xs := by
  unfold sortBySlice sortById
  congr
  funext x y
  rw [decide_eq_decide, TimeSlice.id_le_id_iff (hslice x) (hslice y)]

end Sorting

namespace SliceStore.Represents

variable {α : Type} {slice : α → TimeSlice} {buffers : Nat} {s : SliceStore α} {a : Arrivals α}

theorem runAll (slice : α → TimeSlice) (buffers : Nat) (operations : List (Operation α)) :
    (SliceStore.runAll (SliceStore.perform slice) { buffers } operations).2.Represents slice buffers
      (SliceStore.runAll (Arrivals.perform slice buffers) {} operations).2 :=
  (runAll_related (fun h operation => h.perform operation) (empty slice buffers) operations).2

theorem drainAll_by_id (h : s.Represents slice buffers a)
    (hslice : ∀ x, (slice x).buffer < 2 ^ 8) : s.drainAll.1 = sortById slice a.items := by
  rw [← sortBySlice_eq_sortById hslice]
  exact h.holds.toList_eq

/-- The generations before `wrap` have the ids below its first one. -/
theorem drainOlder_by_id (h : s.Represents slice buffers a)
    (hslice : ∀ x, (slice x).buffer < 2 ^ 8) (wrap : Nat) :
    (s.drainOlder wrap).1 =
      sortById slice (a.items.filter fun x => (slice x).id < TimeSlice.id ⟨wrap, 0⟩) := by
  have hbelow (x : α) :
      (slice x).id < TimeSlice.id ⟨wrap, 0⟩ ↔ (slice x).wrap < wrap := by
    rw [TimeSlice.id_lt_id_iff (hslice x) (Nat.two_pow_pos 8), TimeSlice.lt_def]
    dsimp only
    omega
  simp only [hbelow]
  rw [← sortBySlice_eq_sortById hslice]
  exact (h.holds.drainOlder wrap).1

theorem drainBuffer_by_id (h : s.Represents slice buffers a)
    (hslice : ∀ x, (slice x).buffer < 2 ^ 8) {t : TimeSlice} (ht : t.buffer < 2 ^ 8) :
    (s.drainBuffer t).1 = a.items.filter fun x => (slice x).id = t.id := by
  have hsame (x : α) : (slice x).id = t.id ↔ slice x = t := TimeSlice.id_eq_id_iff (hslice x) ht
  simp only [hsame]
  exact (h.holds.drainBuffer t).1

end SliceStore.Represents
end EventReadout
