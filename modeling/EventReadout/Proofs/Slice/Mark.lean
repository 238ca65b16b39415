import EventReadout.Proofs.Slice.Reassembly

/-! Where the mark of a reassembly stands while items are filed. -/
namespace EventReadout
namespace Reassembly

variable {α : Type} {slice : α → TimeSlice} {r r' : Reassembly α} {xs : List α}

/-- Nothing has come in yet, or the mark is the newest slice held of a resident generation. -/
def Tracks (slice : α → TimeSlice) (xs : List α) (r : Reassembly α) : Prop :=
  r.store.wraps = [] ∧ r.mark = {} ∨
    r.mark.wrap ∈ r.store.wraps ∧ (∃ x ∈ xs, slice x = r.mark) ∧
      ∀ x ∈ xs, (slice x).wrap = r.mark.wrap → (slice x).buffer ≤ r.mark.buffer

theorem Filed.tracks {x : α} {v : Verdict} (h : r.store.Holds slice xs) (ht : Tracks slice xs r)
    (hf : Filed slice xs r x v r') :
    Tracks slice (xs ++ if v = .accepted then [x] else []) r' := by
  cases hf with
  | outOfRange | stale => simpa using ht
  | @resident store hb hw hs hbuf hws =>
    right
    rcases ht with ⟨hnil, -⟩ | ⟨hmem, ⟨y, hy, hym⟩, hmax⟩
    · rw [hnil] at hw
      cases hw
    rw [if_pos rfl]
    by_cases hadvance : (slice x).wrap = r.mark.wrap ∧ r.mark.buffer < (slice x).buffer
    · simp only [if_pos hadvance]
      refine ⟨by rw [hws]; exact hw, ⟨x, by simp, rfl⟩, ?_⟩
      intro z hz hzw
      rcases List.mem_append.1 hz with hz | hz
      · have := hmax z hz (hzw.trans hadvance.1)
        omega
      · obtain rfl := List.mem_singleton.1 hz
        exact Nat.le_refl _
    · simp only [if_neg hadvance]
      refine ⟨by rw [hws]; exact hmem, ⟨y, by simp [hy], hym⟩, ?_⟩
      intro z hz hzw
      rcases List.mem_append.1 hz with hz | hz
      · exact hmax z hz hzw
      · rw [List.mem_singleton.1 hz] at hzw ⊢
        omega
  | opening hb hw hm hs hbuf hws =>
    right
    rw [if_pos rfl]
    refine ⟨(hws _).2 (Or.inl rfl), ⟨x, by simp, rfl⟩, ?_⟩
    intro z hz hzw
    rcases List.mem_append.1 hz with hz | hz
    · -- an item held belongs to a resident generation, and this one was not
      have hmem := (h.resident_of_mem hz).1
      rw [hzw] at hmem
      exact absurd hmem hw
    · obtain rfl := List.mem_singleton.1 hz
      exact Nat.le_refl _

theorem tracks_fileAll (h : r.store.Holds slice xs) (ht : Tracks slice xs r) (ys : List α) :
    Tracks slice (xs ++ r.judged slice .accepted ys) (r.fileAll slice ys) :=
  (fileAll_induction (P := Tracks slice) (fun h ht hf => hf.tracks h ht) h ht ys).2

theorem Tracks.of_ne_nil (ht : Tracks slice xs r) (h : r.store.Holds slice xs) (hne : xs ≠ []) :
    (∃ x ∈ xs, slice x = r.mark) ∧
      ∀ x ∈ xs, (slice x).wrap = r.mark.wrap → (slice x).buffer ≤ r.mark.buffer := by
  rcases ht with ⟨hnil, -⟩ | ⟨-, hmem, hmax⟩
  · obtain ⟨x, hx⟩ := List.exists_mem_of_ne_nil xs hne
    have hres := (h.resident_of_mem hx).1
    rw [hnil] at hres
    cases hres
  · exact ⟨hmem, hmax⟩

/-- A generation that is not resident, or is the newest, takes all items for its buffers. -/
theorem fileAll_generation (h : r.store.Holds slice xs) {k : Nat}
    (hk : k ∉ r.store.wraps ∧ r.mark.wrap ≤ k + 1 ∨ k ∈ r.store.wraps ∧ r.mark.wrap = k)
    {ys : List α} (hys : ∀ y ∈ ys, (slice y).wrap = k ∧ (slice y).buffer < r.store.buffers)
    (hne : ys ≠ []) :
    r.judged slice .accepted ys = ys ∧ (r.fileAll slice ys).mark.wrap = k ∧
      ∀ w ∈ (r.fileAll slice ys).store.wraps, w = k ∨ w ∈ r.store.wraps := by
  induction ys generalizing r xs with
  | nil => exact absurd rfl hne
  | cons y ys ih =>
    obtain ⟨hyk, hyb⟩ := hys y (by simp)
    have hfiled := file_filed h y
    have hfirst : (r.file (slice y) y).1 = .accepted ∧ k ∈ (r.file (slice y) y).2.store.wraps ∧
        (r.file (slice y) y).2.mark.wrap = k ∧
        ∀ w ∈ (r.file (slice y) y).2.store.wraps, w = k ∨ w ∈ r.store.wraps := by
      revert hfiled
      generalize (r.file (slice y) y).1 = v
      generalize (r.file (slice y) y).2 = r'
      intro hfiled
      subst hyk
      cases hfiled with
      | outOfRange hb => omega
      | stale hb hw hm => omega
      | resident hb hw hs hbuf hws =>
        refine ⟨rfl, by rw [hws]; exact hw, ?_, fun w hmem => Or.inr (by rwa [hws] at hmem)⟩
        have hmark : r.mark.wrap = (slice y).wrap := by tauto
        dsimp only
        split
        · rfl
        · exact hmark
      | opening hb hw hm hs hbuf hws =>
        exact ⟨rfl, (hws _).2 (Or.inl rfl), rfl, fun w hmem => (hws w).1 hmem⟩
    obtain ⟨hacc, hmem, hmark, hwraps⟩ := hfirst
    rw [judged, fileAll, if_pos hacc]
    cases ys with
    | nil => exact ⟨rfl, hmark, hwraps⟩
    | cons z zs =>
      obtain ⟨hrest, hmark', hwraps'⟩ := ih (hfiled.holds h) (Or.inr ⟨hmem, hmark⟩)
        (fun x hx => by rw [hfiled.buffers]; exact hys x (List.mem_cons_of_mem _ hx)) (by simp)
      refine ⟨by rw [hrest]; rfl, hmark', ?_⟩
      intro w hw
      rcases hwraps' w hw with hw | hw
      · exact Or.inl hw
      · exact hwraps w hw

end Reassembly
end EventReadout
