import EventReadout.Slice.Basic
import Mathlib.Order.Defs.LinearOrder

/-! Time slices as a linear order, and items in the order of their slices. -/
namespace EventReadout

namespace TimeSlice

theorem le_def {s t : TimeSlice} :
    s ≤ t ↔ s.wrap < t.wrap ∨ s.wrap = t.wrap ∧ s.buffer ≤ t.buffer := Iff.rfl

theorem ext_iff {s t : TimeSlice} : s = t ↔ s.wrap = t.wrap ∧ s.buffer = t.buffer := by
  cases s
  cases t
  simp

instance : LT TimeSlice := ⟨fun s t => s.wrap < t.wrap ∨ s.wrap = t.wrap ∧ s.buffer < t.buffer⟩

theorem lt_def {s t : TimeSlice} :
    s < t ↔ s.wrap < t.wrap ∨ s.wrap = t.wrap ∧ s.buffer < t.buffer := Iff.rfl

instance : LinearOrder TimeSlice where
  le_refl s := le_def.2 (by omega)
  le_trans s t u hst htu := by
    rw [le_def] at *
    omega
  lt_iff_le_not_ge s t := by
    rw [lt_def, le_def, le_def]
    omega
  le_antisymm s t hst hts := by
    rw [le_def] at *
    rw [ext_iff]
    omega
  le_total s t := by
    rw [le_def, le_def]
    omega
  toDecidableLE := inferInstance

/-- The same buffer one generation later. -/
def succWrap (s : TimeSlice) : TimeSlice := { s with wrap := s.wrap + 1 }

@[simp] theorem succWrap_wrap (s : TimeSlice) : s.succWrap.wrap = s.wrap + 1 := rfl

@[simp] theorem succWrap_buffer (s : TimeSlice) : s.succWrap.buffer = s.buffer := rfl

theorem lt_succWrap (s : TimeSlice) : s < s.succWrap := by
  rw [lt_def, succWrap_wrap]
  omega

theorem succWrap_le_succWrap {s t : TimeSlice} (h : s ≤ t) : s.succWrap ≤ t.succWrap := by
  rw [le_def] at *
  rw [succWrap_wrap, succWrap_wrap, succWrap_buffer, succWrap_buffer]
  omega

/-- The slice after this one when a generation has `buffers` of them. -/
def succ (buffers : Nat) (s : TimeSlice) : TimeSlice :=
  if s.buffer + 1 < buffers then ⟨s.wrap, s.buffer + 1⟩ else ⟨s.wrap + 1, 0⟩

theorem le_succ (buffers : Nat) (s : TimeSlice) : s ≤ s.succ buffers := by
  unfold succ
  rw [le_def]
  split
  · exact Or.inr ⟨rfl, Nat.le_succ _⟩
  · exact Or.inl (Nat.lt_succ_self _)

end TimeSlice

section Sorting

variable {α : Type} {slice : α → TimeSlice}

/-- Items in the order of their slices; items of one slice keep their order. -/
def sortBySlice (slice : α → TimeSlice) (xs : List α) : List α :=
  xs.mergeSort fun x y => slice x ≤ slice y

theorem sortBySlice_perm (slice : α → TimeSlice) (xs : List α) :
    (sortBySlice slice xs).Perm xs := List.mergeSort_perm xs _

@[simp] theorem mem_sortBySlice {x : α} {xs : List α} : x ∈ sortBySlice slice xs ↔ x ∈ xs :=
  (sortBySlice_perm slice xs).mem_iff

theorem pairwise_sortBySlice (xs : List α) :
    (sortBySlice slice xs).Pairwise fun x y => slice x ≤ slice y := by
  have h : (sortBySlice slice xs).Pairwise fun x y => decide (slice x ≤ slice y) = true :=
    List.pairwise_mergeSort (by simpa using fun x y z => le_trans)
      (by simpa using fun x y => le_total _ _) xs
  simpa [sortBySlice] using h

theorem sortBySlice_of_pairwise {xs : List α}
    (h : xs.Pairwise fun x y => slice x ≤ slice y) : sortBySlice slice xs = xs :=
  List.mergeSort_of_pairwise (by simpa using h)

theorem filter_sortBySlice (t : TimeSlice) (xs : List α) :
    (sortBySlice slice xs).filter (slice · = t) = xs.filter (slice · = t) := by
  have hsorted : (xs.filter (slice · = t)).Pairwise
      fun x y => decide (slice x ≤ slice y) = true := by
    apply List.pairwise_of_forall_mem_list
    intro x hx y hy
    simp only [List.mem_filter, decide_eq_true_eq] at hx hy ⊢
    rw [hx.2, hy.2]
  have hsub : (xs.filter (slice · = t)).Sublist (sortBySlice slice xs) :=
    List.sublist_mergeSort (by simpa using fun x y z => le_trans)
      (by simpa using fun x y => le_total _ _) hsorted List.filter_sublist
  have hfilter := hsub.filter (slice · = t)
  simp only [List.filter_filter, Bool.and_self] at hfilter
  exact (hfilter.eq_of_length ((sortBySlice_perm slice xs).filter _).length_eq.symm).symm

/-- In order of their slices, two lists that agree on every slice are the same. -/
theorem eq_of_pairwise_of_filter_eq {xs ys : List α}
    (hx : xs.Pairwise fun x y => slice x ≤ slice y) (hy : ys.Pairwise fun x y => slice x ≤ slice y)
    (h : ∀ t, xs.filter (slice · = t) = ys.filter (slice · = t)) : xs = ys := by
  induction xs generalizing ys with
  | nil =>
    cases ys with
    | nil => rfl
    | cons y ys => simpa using h (slice y)
  | cons x xs ih =>
    cases ys with
    | nil => simpa using h (slice x)
    | cons y ys =>
      rw [List.pairwise_cons] at hx hy
      -- each head has a partner of its own slice in the other list
      have hxmem : x ∈ (y :: ys).filter (slice · = slice x) := by simp [← h]
      have hymem : y ∈ (x :: xs).filter (slice · = slice y) := by simp [h]
      have hle : slice y ≤ slice x := by
        rcases List.mem_cons.1 (List.mem_filter.1 hxmem).1 with rfl | hmem
        · exact le_rfl
        · exact hy.1 x hmem
      have hge : slice x ≤ slice y := by
        rcases List.mem_cons.1 (List.mem_filter.1 hymem).1 with rfl | hmem
        · exact le_rfl
        · exact hx.1 y hmem
      have hslice : slice x = slice y := le_antisymm hge hle
      have hhead : x = y := by
        have := h (slice x)
        simp only [List.filter_cons, hslice, decide_true, if_true] at this
        exact (List.cons.inj this).1
      subst hhead
      rw [ih hx.2 hy.2 fun t => ?_]
      have := h t
      by_cases ht : slice x = t <;> simpa [ht] using this

theorem eq_sortBySlice {xs ys : List α} (hx : xs.Pairwise fun x y => slice x ≤ slice y)
    (h : ∀ t, xs.filter (slice · = t) = ys.filter (slice · = t)) : xs = sortBySlice slice ys :=
  eq_of_pairwise_of_filter_eq hx (pairwise_sortBySlice ys) fun t => by
    rw [filter_sortBySlice, h t]

theorem sortBySlice_append {xs ys : List α} (h : ∀ x ∈ xs, ∀ y ∈ ys, slice x ≤ slice y) :
    sortBySlice slice (xs ++ ys) = sortBySlice slice xs ++ sortBySlice slice ys := by
  symm
  apply eq_sortBySlice
  · rw [List.pairwise_append]
    exact ⟨pairwise_sortBySlice xs, pairwise_sortBySlice ys, by simpa using h⟩
  · simp [filter_sortBySlice]

theorem filter_slice_append (p : TimeSlice → Prop) [DecidablePred p] (t : TimeSlice)
    (xs : List α) :
    (xs.filter fun x => p (slice x)).filter (slice · = t) ++
        (xs.filter fun x => ¬ p (slice x)).filter (slice · = t) =
      xs.filter (slice · = t) := by
  rw [List.filter_filter, List.filter_filter]
  by_cases ht : p t
  · have hcut : xs.filter (fun x => decide (slice x = t) && decide ¬ p (slice x)) = [] := by
      rw [List.filter_eq_nil_iff]
      intro x _ hx
      simp only [Bool.and_eq_true, decide_eq_true_eq] at hx
      exact hx.2 (by rw [hx.1]; exact ht)
    rw [hcut, List.append_nil]
    apply List.filter_congr
    intro x _
    by_cases hx : slice x = t
    · simp [hx, ht]
    · simp [hx]
  · have hcut : xs.filter (fun x => decide (slice x = t) && decide (p (slice x))) = [] := by
      rw [List.filter_eq_nil_iff]
      intro x _ hx
      simp only [Bool.and_eq_true, decide_eq_true_eq] at hx
      exact ht (by rw [← hx.1]; exact hx.2)
    rw [hcut, List.nil_append]
    apply List.filter_congr
    intro x _
    by_cases hx : slice x = t
    · simp [hx, ht]
    · simp [hx]

/-- Sorting can be done below and above a cut apart. -/
theorem sortBySlice_eq_append (p : TimeSlice → Prop) [DecidablePred p] {xs : List α}
    (h : ∀ x ∈ xs, ∀ y ∈ xs, p (slice x) → ¬ p (slice y) → slice x ≤ slice y) :
    sortBySlice slice xs =
      sortBySlice slice (xs.filter fun x => p (slice x)) ++
        sortBySlice slice (xs.filter fun x => ¬ p (slice x)) := by
  rw [← sortBySlice_append (by simpa using fun x hx px y hy py => h x hx y hy px py)]
  refine eq_sortBySlice (pairwise_sortBySlice xs) fun t => ?_
  rw [filter_sortBySlice, List.filter_append, filter_slice_append]

/-- In the order of slices, whatever lies below a cut comes first. -/
theorem filter_append_filter {p q : TimeSlice → Prop} [DecidablePred p] [DecidablePred q]
    {xs : List α} (hxs : xs.Pairwise fun x y => slice x ≤ slice y)
    (hp : ∀ {s t}, s ≤ t → p t → p s) (hpq : ∀ t, p t → q t) :
    (xs.filter fun x => p (slice x)) ++ (xs.filter fun x => ¬ p (slice x) ∧ q (slice x)) =
      xs.filter fun x => q (slice x) := by
  have hsort (f : α → Bool) : sortBySlice slice (xs.filter f) = xs.filter f :=
    sortBySlice_of_pairwise (hxs.sublist List.filter_sublist)
  have hcut : sortBySlice slice (xs.filter fun x => q (slice x)) = _ :=
    sortBySlice_eq_append p fun x _ y _ hpx hpy => by
      rcases le_total (slice x) (slice y) with hle | hle
      · exact hle
      · exact absurd (hp hle hpx) hpy
  rw [List.filter_filter, List.filter_filter, hsort, hsort, hsort] at hcut
  rw [hcut]
  congr 1
  · apply List.filter_congr
    intro x _
    have := hpq (slice x)
    by_cases hpx : p (slice x) <;> simp_all
  · simp

end Sorting
end EventReadout
