import EventReadout.Proofs.Slice.Store
import EventReadout.Slice.Reassembly

/-!
What filing and draining do to the items that a reassembly holds.

Filing appends an accepted item to the items held; draining writes the final ones in the order of
their slices and keeps the others.
-/
namespace EventReadout

/-- Nothing that arrives under this mark can still precede the slice `t`. -/
def TimeSlice.Finalizes (mark t : TimeSlice) : Prop := t.wrap + 1 < mark.wrap ∨ t.succWrap = mark

instance (mark t : TimeSlice) : Decidable (mark.Finalizes t) := inferInstanceAs (Decidable (_ ∨ _))

theorem TimeSlice.finalizes_def {mark t : TimeSlice} :
    mark.Finalizes t ↔
      t.wrap + 1 < mark.wrap ∨ t.wrap + 1 = mark.wrap ∧ t.buffer = mark.buffer := by
  rw [Finalizes, ext_iff, succWrap_wrap, succWrap_buffer]

namespace Reassembly

variable {α : Type} {slice : α → TimeSlice} {r r' : Reassembly α} {xs : List α}

/-- The ways to file an item when `xs` are held: refused, late, into a resident generation, or
into one that it opens. -/
inductive Filed (slice : α → TimeSlice) (xs : List α) (r : Reassembly α) (x : α) :
    Verdict → Reassembly α → Prop
  | outOfRange (hb : r.store.buffers ≤ (slice x).buffer) : Filed slice xs r x .outOfRange r
  | stale (hb : (slice x).buffer < r.store.buffers) (hw : (slice x).wrap ∉ r.store.wraps)
      (hm : (slice x).wrap + 1 < r.mark.wrap) : Filed slice xs r x .stale r
  | resident {store : SliceStore α} (hb : (slice x).buffer < r.store.buffers)
      (hw : (slice x).wrap ∈ r.store.wraps) (hs : store.Holds slice (xs ++ [x]))
      (hbuf : store.buffers = r.store.buffers) (hws : store.wraps = r.store.wraps) :
      Filed slice xs r x .accepted
        { store
          mark :=
            if (slice x).wrap = r.mark.wrap ∧ r.mark.buffer < (slice x).buffer then slice x
            else r.mark }
  | opening {store : SliceStore α} (hb : (slice x).buffer < r.store.buffers)
      (hw : (slice x).wrap ∉ r.store.wraps) (hm : r.mark.wrap ≤ (slice x).wrap + 1)
      (hs : store.Holds slice (xs ++ [x])) (hbuf : store.buffers = r.store.buffers)
      (hws : ∀ v, v ∈ store.wraps ↔ v = (slice x).wrap ∨ v ∈ r.store.wraps) :
      Filed slice xs r x .accepted { store, mark := slice x }

theorem file_filed (h : r.store.Holds slice xs) (x : α) :
    Filed slice xs r x (r.file (slice x) x).1 (r.file (slice x) x).2 := by
  rw [file]
  by_cases hb : r.store.buffers ≤ (slice x).buffer
  · rw [if_pos hb]
    exact .outOfRange hb
  rw [if_neg hb]
  have hlt : (slice x).buffer < r.store.buffers := by omega
  by_cases hw : r.store.contains (slice x).wrap = true
  · have hmem := SliceStore.contains_iff_mem.1 hw
    obtain ⟨store, hadd, hs, hws, hbuf⟩ := h.add? hmem hlt
    rw [if_pos hw]
    simp only [deposit, hadd]
    exact .resident hlt hmem hs hbuf hws
  · have hmem : (slice x).wrap ∉ r.store.wraps := fun hmem =>
      hw (SliceStore.contains_iff_mem.2 hmem)
    rw [if_neg hw]
    by_cases hm : r.mark.wrap - 1 ≤ (slice x).wrap
    · obtain ⟨hopen, hopenws⟩ := h.openWrap (slice x).wrap
      obtain ⟨store, hadd, hs, hws, hbuf⟩ :=
        hopen.add? ((hopenws _).2 (Or.inl rfl)) (by rwa [SliceStore.buffers_openWrap])
      rw [if_pos hm]
      simp only [deposit, hadd]
      refine .opening hlt hmem (by omega) hs (by rw [hbuf, SliceStore.buffers_openWrap]) ?_
      rw [hws]
      exact hopenws
    · rw [if_neg hm]
      exact .stale hlt hmem (by omega)

theorem Filed.holds {x : α} {v : Verdict} (hf : Filed slice xs r x v r')
    (h : r.store.Holds slice xs) :
    r'.store.Holds slice (xs ++ if v = .accepted then [x] else []) := by
  cases hf with
  | outOfRange | stale => simpa using h
  | resident _ _ hs | opening _ _ _ hs => exact hs

theorem Filed.buffers {x : α} {v : Verdict} (hf : Filed slice xs r x v r') :
    r'.store.buffers = r.store.buffers := by
  cases hf with
  | outOfRange | stale => rfl
  | resident _ _ _ hbuf | opening _ _ _ _ hbuf => exact hbuf

theorem Filed.outOfRange_iff {x : α} {v : Verdict} (hf : Filed slice xs r x v r') :
    v = .outOfRange ↔ r.store.buffers ≤ (slice x).buffer := by
  cases hf <;> simp [*]

/-- Items filed one after the other. -/
def fileAll (slice : α → TimeSlice) : Reassembly α → List α → Reassembly α
  | r, [] => r
  | r, x :: xs => fileAll slice (r.file (slice x) x).2 xs

/-- The items that meet with one verdict when all are filed in turn. -/
def judged (slice : α → TimeSlice) (v : Verdict) : Reassembly α → List α → List α
  | _, [] => []
  | r, x :: xs =>
    (if (r.file (slice x) x).1 = v then [x] else []) ++ judged slice v (r.file (slice x) x).2 xs

/-- What every filing keeps, whatever the verdict, is kept by all of them. -/
theorem fileAll_induction {P : List α → Reassembly α → Prop}
    (step : ∀ {xs r x v r'}, r.store.Holds slice xs → P xs r → Filed slice xs r x v r' →
      P (xs ++ if v = .accepted then [x] else []) r')
    (h : r.store.Holds slice xs) (hP : P xs r) (ys : List α) :
    (r.fileAll slice ys).store.Holds slice (xs ++ r.judged slice .accepted ys) ∧
      P (xs ++ r.judged slice .accepted ys) (r.fileAll slice ys) := by
  induction ys generalizing r xs with
  | nil => simpa [fileAll, judged] using ⟨h, hP⟩
  | cons y ys ih =>
    have hfile := file_filed h y
    rw [fileAll, judged, ← List.append_assoc]
    exact ih (hfile.holds h) (step h hP hfile)

theorem holds_fileAll (h : r.store.Holds slice xs) (ys : List α) :
    (r.fileAll slice ys).store.Holds slice (xs ++ r.judged slice .accepted ys) :=
  (fileAll_induction (P := fun _ _ => True) (fun _ _ _ => trivial) h trivial ys).1

theorem buffers_fileAll (h : r.store.Holds slice xs) (ys : List α) :
    (r.fileAll slice ys).store.buffers = r.store.buffers :=
  (fileAll_induction (P := fun _ q => q.store.buffers = r.store.buffers)
    (fun _ hP hf => hf.buffers.trans hP) h rfl ys).2

theorem bucket_fileAll (h : r.store.Holds slice xs) (ys : List α) (t : TimeSlice) :
    (r.fileAll slice ys).store.bucket t =
      r.store.bucket t ++ (r.judged slice .accepted ys).filter (slice · = t) := by
  rw [(holds_fileAll h ys).bucket, h.bucket, List.filter_append]

theorem judged_sublist (slice : α → TimeSlice) (v : Verdict) (r : Reassembly α) (ys : List α) :
    (r.judged slice v ys).Sublist ys := by
  induction ys generalizing r with
  | nil => exact .slnil
  | cons y ys ih =>
    rw [judged]
    split
    · exact (ih _).cons_cons y
    · exact (ih _).cons y

theorem judged_perm (slice : α → TimeSlice) (r : Reassembly α) (ys : List α) :
    (r.judged slice .accepted ys ++ r.judged slice .stale ys ++
      r.judged slice .outOfRange ys).Perm ys := by
  induction ys generalizing r with
  | nil => exact .nil
  | cons y ys ih =>
    have hrest := (ih (r.file (slice y) y).2).cons y
    simp only [judged]
    refine .trans ?_ hrest
    cases (r.file (slice y) y).1 with
    | accepted => simp
    | stale => simp
    | outOfRange =>
      simp only [reduceCtorEq, if_true, if_false, List.nil_append, List.singleton_append]
      exact List.perm_middle

theorem judged_outOfRange (h : r.store.Holds slice xs) (ys : List α) :
    r.judged slice .outOfRange ys = ys.filter fun y => r.store.buffers ≤ (slice y).buffer := by
  induction ys generalizing r xs with
  | nil => rfl
  | cons y ys ih =>
    have hfile := file_filed h y
    rw [judged, ih (hfile.holds h), hfile.buffers, List.filter_cons]
    by_cases hy : r.store.buffers ≤ (slice y).buffer
    · simp [hy, hfile.outOfRange_iff.2 hy]
    · simp [hy, hfile.outOfRange_iff]

theorem buffer_lt_of_judged (h : r.store.Holds slice xs) {v : Verdict} (hv : v ≠ .outOfRange)
    {ys : List α} : ∀ y ∈ r.judged slice v ys, (slice y).buffer < r.store.buffers := by
  induction ys generalizing r xs with
  | nil => simp [judged]
  | cons y ys ih =>
    have hfile := file_filed h y
    intro z hz
    rw [judged, List.mem_append] at hz
    rcases hz with hz | hz
    · split at hz
      · next heq =>
        rw [List.mem_singleton.1 hz]
        by_contra hlt
        exact hv (heq ▸ hfile.outOfRange_iff.2 (by omega))
      · simp at hz
    · rw [← hfile.buffers]
      exact ih (hfile.holds h) z hz

section Final

variable {m : TimeSlice}

private theorem eq_last_iff (hm : m.wrap ≠ 0) (t : TimeSlice) :
    t = ⟨m.wrap - 1, m.buffer⟩ ↔ t.wrap + 1 = m.wrap ∧ t.buffer = m.buffer := by
  rw [TimeSlice.ext_iff]
  dsimp only
  omega

/-- In order, what is final is the older generations and then one buffer. -/
private theorem sortBySlice_final (hm : m.wrap ≠ 0) (xs : List α) :
    sortBySlice slice (xs.filter fun x => m.Finalizes (slice x)) =
      sortBySlice slice (xs.filter fun x => (slice x).wrap < m.wrap - 1) ++
        xs.filter fun x => decide (slice x = ⟨m.wrap - 1, m.buffer⟩) &&
          decide ¬ (slice x).wrap < m.wrap - 1 := by
  rw [sortBySlice_eq_append (fun t => t.wrap + 1 < m.wrap), List.filter_filter,
    List.filter_filter]
  · congr 1
    · refine congrArg _ (List.filter_congr fun x _ => ?_)
      rw [Bool.eq_iff_iff]
      simp only [Bool.and_eq_true, decide_eq_true_eq, TimeSlice.finalizes_def]
      omega
    · rw [sortBySlice_of_pairwise]
      · apply List.filter_congr
        intro x _
        rw [Bool.eq_iff_iff]
        simp only [Bool.and_eq_true, decide_eq_true_eq, TimeSlice.finalizes_def, eq_last_iff hm]
        omega
      · apply List.pairwise_of_forall_mem_list
        intro x hx y hy
        simp only [List.mem_filter, Bool.and_eq_true, decide_eq_true_eq,
          TimeSlice.finalizes_def] at hx hy
        rw [TimeSlice.le_def]
        omega
  · intro x hx y hy hpx hpy
    simp only [List.mem_filter, decide_eq_true_eq, TimeSlice.finalizes_def] at hx hy
    rw [TimeSlice.le_def]
    omega

private theorem filter_not_final (hm : m.wrap ≠ 0) (xs : List α) :
    xs.filter (fun x => ¬ m.Finalizes (slice x)) =
      xs.filter fun x => decide (slice x ≠ ⟨m.wrap - 1, m.buffer⟩) &&
        decide ¬ (slice x).wrap < m.wrap - 1 := by
  apply List.filter_congr
  intro x _
  rw [Bool.eq_iff_iff]
  simp only [ne_eq, Bool.and_eq_true, decide_eq_true_eq, TimeSlice.finalizes_def, eq_last_iff hm]
  omega

end Final

/-- What is final leaves in the order of the slices; everything else stays. -/
theorem drainFinal_eq (h : r.store.Holds slice xs) :
    r.drainFinal.1 = sortBySlice slice (xs.filter fun x => r.mark.Finalizes (slice x)) ∧
      r.drainFinal.2.store.Holds slice (xs.filter fun x => ¬ r.mark.Finalizes (slice x)) ∧
      r.drainFinal.2.store.wraps = r.store.wraps.filter (fun w => ¬ w + 1 < r.mark.wrap) ∧
      r.drainFinal.2.mark = r.mark := by
  rw [drainFinal]
  by_cases hm : r.mark.wrap = 0
  · have hnone (t : TimeSlice) : ¬ r.mark.Finalizes t := by
      rw [TimeSlice.finalizes_def]
      omega
    rw [if_pos hm]
    simpa [hnone, hm, sortBySlice] using h
  rw [if_neg hm]
  obtain ⟨holder, hkept, hws⟩ := h.drainOlder (r.mark.wrap - 1)
  obtain ⟨hbucket, hrest, hws'⟩ := hkept.drainBuffer ⟨r.mark.wrap - 1, r.mark.buffer⟩
  rw [List.filter_filter] at hbucket hrest
  refine ⟨?_, ?_, ?_, rfl⟩
  · rw [sortBySlice_final hm]
    dsimp only
    rw [holder, hbucket]
  · rw [filter_not_final hm]
    exact hrest
  · dsimp only
    rw [hws', hws]
    apply List.filter_congr
    intro w _
    rw [decide_eq_decide]
    omega

theorem drainFinal_of_pending (h : r.store.Holds slice xs)
    (hpending : ∀ x ∈ xs, ¬ r.mark.Finalizes (slice x)) :
    r.drainFinal.1 = [] ∧ r.drainFinal.2.store.Holds slice xs := by
  obtain ⟨hout, hkept, -, -⟩ := drainFinal_eq h
  have hnone : xs.filter (fun x => r.mark.Finalizes (slice x)) = [] := by
    rw [List.filter_eq_nil_iff]
    simpa using hpending
  have hall : xs.filter (fun x => ¬ r.mark.Finalizes (slice x)) = xs := by
    rw [List.filter_eq_self]
    simpa using hpending
  rw [hnone, sortBySlice_of_pairwise .nil] at hout
  rw [hall] at hkept
  exact ⟨hout, hkept⟩

theorem buffers_drainFinal (r : Reassembly α) :
    r.drainFinal.2.store.buffers = r.store.buffers := by
  unfold drainFinal
  split
  · rfl
  · simp only [SliceStore.drainBuffer]
    split <;> rfl

theorem finish_eq (h : r.store.Holds slice xs) :
    r.finish = (sortBySlice slice xs, { store := { r.store with residents := [] } }) := by
  rw [finish, SliceStore.drainAll, h.toList_eq]

end Reassembly
end EventReadout
