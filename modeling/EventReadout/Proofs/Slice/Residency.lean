import EventReadout.Proofs.Slice.Mark
import Mathlib.Data.List.Perm.Subperm

/-!
Which generations are resident, told from the items accepted since the store was empty.

From the mark on these are all generations up to the newest one accepted. The mark falls back when
an item opens the generation before it, and never does while generations appear in ascending order.
-/
namespace EventReadout

section Appearance

variable {α : Type} {slice : α → TimeSlice} {known known' : List Nat} {xs ys : List α} {x : α}

/-- The items that are the first of their generation, where `known` have been seen before. -/
def newcomers (slice : α → TimeSlice) : List Nat → List α → List α
  | _, [] => []
  | known, x :: xs =>
    if (slice x).wrap ∈ known then newcomers slice known xs
    else x :: newcomers slice ((slice x).wrap :: known) xs

theorem newcomers_of_known (h : (slice x).wrap ∈ known) (xs : List α) :
    newcomers slice known (x :: xs) = newcomers slice known xs := by
  rw [newcomers, if_pos h]

theorem newcomers_of_new (h : (slice x).wrap ∉ known) (xs : List α) :
    newcomers slice known (x :: xs) = x :: newcomers slice ((slice x).wrap :: known) xs := by
  rw [newcomers, if_neg h]

theorem newcomers_congr (h : ∀ w, w ∈ known ↔ w ∈ known') (xs : List α) :
    newcomers slice known xs = newcomers slice known' xs := by
  induction xs generalizing known known' with
  | nil => rfl
  | cons x xs ih =>
    by_cases hx : (slice x).wrap ∈ known
    · rw [newcomers_of_known hx, newcomers_of_known ((h _).1 hx), ih h]
    · rw [newcomers_of_new hx, newcomers_of_new fun hx' => hx ((h _).2 hx')]
      have hcons : ∀ w, w ∈ (slice x).wrap :: known ↔ w ∈ (slice x).wrap :: known' := by
        intro w
        rw [List.mem_cons, List.mem_cons, h]
      rw [ih hcons]

theorem newcomers_append (known : List Nat) (xs ys : List α) :
    newcomers slice known (xs ++ ys) = newcomers slice known xs ++
      newcomers slice (xs.map (fun x => (slice x).wrap) ++ known) ys := by
  induction xs generalizing known with
  | nil => rfl
  | cons x xs ih =>
    rw [List.cons_append, List.map_cons]
    by_cases hx : (slice x).wrap ∈ known
    · rw [newcomers_of_known hx, newcomers_of_known hx, ih]
      congr 1
      apply newcomers_congr
      intro w
      simp only [List.mem_append, List.mem_cons]
      constructor
      · tauto
      · rintro ((rfl | hw) | hw)
        · exact Or.inr hx
        · exact Or.inl hw
        · exact Or.inr hw
    · rw [newcomers_of_new hx, newcomers_of_new hx, ih, List.cons_append]
      congr 2
      apply newcomers_congr
      intro w
      simp only [List.mem_append, List.mem_cons]
      tauto

theorem mem_of_mem_newcomers (h : x ∈ newcomers slice known xs) :
    x ∈ xs ∧ (slice x).wrap ∉ known := by
  induction xs generalizing known with
  | nil => cases h
  | cons y ys ih =>
    by_cases hy : (slice y).wrap ∈ known
    · rw [newcomers_of_known hy] at h
      obtain ⟨hmem, hnew⟩ := ih h
      exact ⟨List.mem_cons_of_mem _ hmem, hnew⟩
    · rw [newcomers_of_new hy] at h
      rcases List.mem_cons.1 h with rfl | h
      · exact ⟨List.mem_cons_self, hy⟩
      · obtain ⟨hmem, hnew⟩ := ih h
        exact ⟨List.mem_cons_of_mem _ hmem, fun hk => hnew (List.mem_cons_of_mem _ hk)⟩

theorem exists_newcomer (hx : x ∈ xs) (hnew : (slice x).wrap ∉ known) :
    ∃ y ∈ newcomers slice known xs, (slice y).wrap = (slice x).wrap := by
  induction xs generalizing known with
  | nil => cases hx
  | cons z zs ih =>
    by_cases hz : (slice z).wrap ∈ known
    · rw [newcomers_of_known hz]
      rcases List.mem_cons.1 hx with rfl | hx
      · exact absurd hz hnew
      · exact ih hx hnew
    · rw [newcomers_of_new hz]
      by_cases heq : (slice z).wrap = (slice x).wrap
      · exact ⟨z, List.mem_cons_self, heq⟩
      · have hx : x ∈ zs := by
          rcases List.mem_cons.1 hx with rfl | hx
          · exact absurd rfl heq
          · exact hx
        obtain ⟨y, hy, hyx⟩ := ih hx fun hmem => by
          rcases List.mem_cons.1 hmem with heq' | hmem
          · exact heq heq'.symm
          · exact hnew hmem
        exact ⟨y, List.mem_cons_of_mem _ hy, hyx⟩

/-- Generations appear for the first time in ascending order. -/
def InSequence (slice : α → TimeSlice) (xs : List α) : Prop :=
  (newcomers slice [] xs).Pairwise fun x y => (slice x).wrap < (slice y).wrap

instance (slice : α → TimeSlice) (xs : List α) : Decidable (InSequence slice xs) :=
  inferInstanceAs (Decidable (List.Pairwise _ _))

theorem InSequence.of_append (h : InSequence slice (xs ++ ys)) : InSequence slice xs := by
  rw [InSequence, newcomers_append, List.pairwise_append] at h
  exact h.1

/-- The next item is of a generation seen before, or of one newer than all seen before. -/
theorem InSequence.last (h : InSequence slice (xs ++ [x])) :
    (∃ y ∈ xs, (slice y).wrap = (slice x).wrap) ∨ ∀ y ∈ xs, (slice y).wrap < (slice x).wrap := by
  by_cases hseen : ∃ y ∈ xs, (slice y).wrap = (slice x).wrap
  · exact Or.inl hseen
  · right
    have hnew : (slice x).wrap ∉ xs.map (fun y => (slice y).wrap) ++ [] := by
      simpa using hseen
    rw [InSequence, newcomers_append, newcomers_of_new hnew, List.pairwise_append] at h
    intro y hy
    obtain ⟨z, hz, hzy⟩ := exists_newcomer hy (List.not_mem_nil : (slice y).wrap ∉ [])
    rw [← hzy]
    exact h.2.2 z hz x List.mem_cons_self

end Appearance

namespace Reassembly

variable {α : Type} {slice : α → TimeSlice} {r r' : Reassembly α} {xs ys : List α}

theorem wraps_length_le_two (h : r.store.Holds slice xs) {m : Nat}
    (htwo : ∀ w ∈ r.store.wraps, w = m ∨ w + 1 = m) : r.store.wraps.length ≤ 2 := by
  have hnodup : r.store.wraps.Nodup := h.ascending.imp Nat.ne_of_lt
  have hsub : r.store.wraps ⊆ [m - 1, m] := by
    intro w hw
    have := htwo w hw
    simp only [List.mem_cons, List.not_mem_nil, or_false]
    omega
  exact (List.subperm_of_subset hnodup hsub).length_le

/-- What every filing keeps of the items accepted so far, `ys` of them before, is kept by all. -/
theorem fileAll_accepted {Q : List α → Reassembly α → Prop}
    (step : ∀ {xs ys r x v r'}, r.store.Holds slice xs → Q ys r → Filed slice xs r x v r' →
      Q (ys ++ if v = .accepted then [x] else []) r')
    (h : r.store.Holds slice xs) (hQ : Q ys r) (zs : List α) :
    Q (ys ++ r.judged slice .accepted zs) (r.fileAll slice zs) := by
  induction zs generalizing r xs ys with
  | nil => simpa [fileAll, judged] using hQ
  | cons z zs ih =>
    have hfiled := file_filed h z
    rw [fileAll, judged, ← List.append_assoc]
    exact ih (hfiled.holds h) (step h hQ hfiled)

/-- A resident generation lets the mark advance in its own generation only. -/
theorem advance_spec (s m : TimeSlice) :
    let m' := if s.wrap = m.wrap ∧ m.buffer < s.buffer then s else m
    m'.wrap = m.wrap ∧ m.buffer ≤ m'.buffer := by
  dsimp only
  split
  · next hadvance => exact ⟨hadvance.1, Nat.le_of_lt hadvance.2⟩
  · exact ⟨rfl, Nat.le_refl _⟩

private theorem exists_mem_snoc {x : α} {p : α → Prop} :
    (∃ y ∈ ys ++ [x], p y) ↔ (∃ y ∈ ys, p y) ∨ p x := by
  simp only [List.mem_append, List.mem_singleton, or_and_right, exists_or, exists_eq_left]

/-- How a reassembly stands to the items accepted since it was empty. -/
structure Follows (slice : α → TimeSlice) (ys : List α) (r : Reassembly α) : Prop where
  marked : r.mark = {} ∨ ∃ y ∈ ys, slice y = r.mark
  spans : ∀ w, r.mark.wrap ≤ w → (w ∈ r.store.wraps ↔ ∃ y ∈ ys, w ≤ (slice y).wrap)

theorem follows_start (slice : α → TimeSlice) (buffers : Nat) :
    Follows slice [] ({ store := { buffers } } : Reassembly α) where
  marked := Or.inl rfl
  spans w _ := by simp [SliceStore.wraps]

theorem Filed.follows {x : α} {v : Verdict} (hf : Filed slice xs r x v r')
    (h : Follows slice ys r) : Follows slice (ys ++ if v = .accepted then [x] else []) r' := by
  cases hf with
  | outOfRange | stale => simpa using h
  | @resident store hb hw hs hbuf hws =>
    rw [if_pos rfl]
    constructor
    · rw [exists_mem_snoc]
      dsimp only
      split
      · exact Or.inr (Or.inr rfl)
      · exact h.marked.imp_right Or.inl
    · intro w hmark
      dsimp only at hmark
      rw [(advance_spec _ _).1] at hmark
      rw [hws, h.spans w hmark, exists_mem_snoc, iff_self_or]
      -- the item is no newer than one accepted before it
      intro hwx
      obtain ⟨y, hy, hxy⟩ := (h.spans _ (Nat.le_trans hmark hwx)).1 hw
      exact ⟨y, hy, Nat.le_trans hwx hxy⟩
  | @opening store hb hw hm hs hbuf hws =>
    rw [if_pos rfl]
    constructor
    · exact Or.inr (exists_mem_snoc.2 (Or.inr rfl))
    · intro w hxw
      dsimp only at hxw
      rw [hws, exists_mem_snoc]
      by_cases heq : w = (slice x).wrap
      · exact iff_of_true (Or.inl heq) (Or.inr (Nat.le_of_eq heq))
      · have hnewer : ¬ w ≤ (slice x).wrap := by omega
        rw [h.spans w (by omega), or_iff_right heq, or_iff_left hnewer]

theorem Follows.fileAll (h : Follows slice ys r) (hr : r.store.Holds slice xs) (zs : List α) :
    Follows slice (ys ++ r.judged slice .accepted zs) (r.fileAll slice zs) :=
  fileAll_accepted (fun _ hq hf => hf.follows hq) hr h zs

theorem Follows.drainFinal (h : Follows slice ys r) (hr : r.store.Holds slice xs) :
    Follows slice ys r.drainFinal.2 := by
  obtain ⟨-, -, hwraps, hmark⟩ := drainFinal_eq hr
  constructor
  · rw [hmark]
    exact h.marked
  · intro w hw
    rw [hmark] at hw
    rw [hwraps, List.mem_filter, ← h.spans w hw]
    simp only [decide_eq_true_eq, and_iff_left_iff_imp]
    omega

/-- The mark is of the newest generation accepted; that and the one before it are resident. -/
structure Leads (slice : α → TimeSlice) (ys : List α) (r : Reassembly α) : Prop where
  newest : ∀ y ∈ ys, (slice y).wrap ≤ r.mark.wrap
  kept : ∀ y ∈ ys, r.mark.wrap ≤ (slice y).wrap + 1 → (slice y).wrap ∈ r.store.wraps

theorem leads_start (slice : α → TimeSlice) (buffers : Nat) :
    Leads slice [] ({ store := { buffers } } : Reassembly α) where
  newest y hy := by cases hy
  kept y hy := by cases hy

theorem Leads.newer_of_opening {x : α} (h : Leads slice ys r) (hfollows : Follows slice ys r)
    (hw : (slice x).wrap ∉ r.store.wraps) (hm : r.mark.wrap ≤ (slice x).wrap + 1)
    (hseq : InSequence slice (ys ++ [x])) :
    (∀ y ∈ ys, (slice y).wrap < (slice x).wrap) ∧
      (r.mark = {} ∨ r.mark.wrap < (slice x).wrap) := by
  have hnewer : ∀ y ∈ ys, (slice y).wrap < (slice x).wrap := by
    rcases hseq.last with ⟨y, hy, hyx⟩ | hnewer
    · have hkept := h.kept y hy (by omega)
      rw [hyx] at hkept
      exact absurd hkept hw
    · exact hnewer
  refine ⟨hnewer, ?_⟩
  rcases hfollows.marked with hzero | ⟨y, hy, hym⟩
  · exact Or.inl hzero
  · right
    rw [← hym]
    exact hnewer y hy

theorem Filed.leads {x : α} {v : Verdict} (hf : Filed slice xs r x v r')
    (hfollows : Follows slice ys r) (h : Leads slice ys r)
    (hseq : InSequence slice (ys ++ if v = .accepted then [x] else [])) :
    Leads slice (ys ++ if v = .accepted then [x] else []) r' ∧ r.mark ≤ r'.mark := by
  cases hf with
  | outOfRange | stale => simpa using h
  | @resident store hb hw hs hbuf hws =>
    rw [if_pos rfl]
    have hxm : (slice x).wrap ≤ r.mark.wrap := by
      by_contra hlt
      obtain ⟨y, hy, hxy⟩ := (hfollows.spans (slice x).wrap (by omega)).1 hw
      have := h.newest y hy
      omega
    obtain ⟨hwrap, hbuffer⟩ := advance_spec (slice x) r.mark
    refine ⟨⟨?_, ?_⟩, Or.inr ⟨hwrap.symm, hbuffer⟩⟩
    · rw [List.forall_mem_append, List.forall_mem_singleton, hwrap]
      exact ⟨h.newest, hxm⟩
    · rw [List.forall_mem_append, List.forall_mem_singleton, hwrap, hws]
      exact ⟨h.kept, fun _ => hw⟩
  | @opening store hb hw hm hs hbuf hws =>
    rw [if_pos rfl] at hseq ⊢
    obtain ⟨hnewer, hmark⟩ := h.newer_of_opening hfollows hw hm hseq
    refine ⟨⟨?_, ?_⟩, ?_⟩
    · rw [List.forall_mem_append, List.forall_mem_singleton]
      exact ⟨fun y hy => Nat.le_of_lt (hnewer y hy), Nat.le_refl _⟩
    · rw [List.forall_mem_append, List.forall_mem_singleton]
      refine ⟨fun y hy hxy => ?_, fun _ => (hws _).2 (Or.inl rfl)⟩
      refine (hws _).2 (Or.inr (h.kept y hy ?_))
      dsimp only at hxy
      rcases hmark with hzero | hmark
      · rw [hzero]
        exact Nat.zero_le _
      · have := hnewer y hy
        omega
    · rw [TimeSlice.le_def]
      rcases hmark with hzero | hmark
      · rw [hzero]
        dsimp only
        omega
      · exact Or.inl hmark

theorem Leads.fileAll (h : Leads slice ys r) (hfollows : Follows slice ys r)
    (hr : r.store.Holds slice xs) (hrecent : ∀ w ∈ r.store.wraps, r.mark.wrap ≤ w + 1)
    {zs : List α} (hseq : InSequence slice (ys ++ r.judged slice .accepted zs)) :
    Leads slice (ys ++ r.judged slice .accepted zs) (r.fileAll slice zs) ∧
      r.mark ≤ (r.fileAll slice zs).mark ∧
      ∀ w ∈ (r.fileAll slice zs).store.wraps, r.mark.wrap ≤ w + 1 := by
  have hall := fileAll_accepted (Q := fun ys q => Follows slice ys q ∧
      (InSequence slice ys → Leads slice ys q ∧ r.mark ≤ q.mark ∧
        ∀ w ∈ q.store.wraps, r.mark.wrap ≤ w + 1))
    ?_ hr ⟨hfollows, fun _ => ⟨h, le_rfl, hrecent⟩⟩ zs
  · exact hall.2 hseq
  · intro xs ys q x v q' _ hq hf
    refine ⟨hf.follows hq.1, fun hseq => ?_⟩
    obtain ⟨hleads, hmark, hwraps⟩ := hq.2 hseq.of_append
    obtain ⟨hleads', hmark'⟩ := hf.leads hq.1 hleads hseq
    refine ⟨hleads', le_trans hmark hmark', ?_⟩
    intro w hw
    cases hf with
    | outOfRange | stale => exact hwraps w hw
    | resident _ _ _ _ hws =>
      rw [hws] at hw
      exact hwraps w hw
    | opening _ _ hm _ _ hws =>
      rcases (hws w).1 hw with rfl | hw
      · rw [TimeSlice.le_def] at hmark
        omega
      · exact hwraps w hw

theorem Leads.drainFinal (h : Leads slice ys r) (hr : r.store.Holds slice xs) :
    Leads slice ys r.drainFinal.2 := by
  obtain ⟨-, -, hwraps, hmark⟩ := drainFinal_eq hr
  constructor
  · rw [hmark]
    exact h.newest
  · intro y hy hmy
    rw [hmark] at hmy
    rw [hwraps, List.mem_filter]
    refine ⟨h.kept y hy hmy, ?_⟩
    rw [decide_eq_true_eq]
    omega

/-- The mark stays in its generation and does not fall, or goes to the one opened last. -/
theorem mark_fileAll (h : r.store.Holds slice xs) (zs : List α) :
    let opened := newcomers slice r.store.wraps (r.judged slice .accepted zs)
    opened = [] ∧ (r.fileAll slice zs).mark.wrap = r.mark.wrap ∧
        r.mark.buffer ≤ (r.fileAll slice zs).mark.buffer ∨
      ∃ x, opened.getLast? = some x ∧ (r.fileAll slice zs).mark.wrap = (slice x).wrap := by
  induction zs generalizing r xs with
  | nil => exact Or.inl ⟨rfl, rfl, Nat.le_refl _⟩
  | cons z zs ih =>
    have hfiled := file_filed h z
    have hrest := ih (hfiled.holds h)
    rw [judged, Reassembly.fileAll]
    revert hfiled hrest
    generalize (r.file (slice z) z).1 = v
    generalize (r.file (slice z) z).2 = q
    intro hfiled hrest
    cases hfiled with
    | outOfRange | stale => simpa using hrest
    | @resident store hb hw hs hbuf hws =>
      rw [if_pos rfl, List.singleton_append, newcomers_of_known hw]
      rw [hws] at hrest
      have hmark := advance_spec (slice z) r.mark
      rcases hrest with ⟨hnone, hwrap, hbuffer⟩ | hlast
      · exact Or.inl ⟨hnone, hwrap.trans hmark.1, Nat.le_trans hmark.2 hbuffer⟩
      · exact Or.inr hlast
    | @opening store hb hw hm hs hbuf hws =>
      right
      rw [if_pos rfl, List.singleton_append, newcomers_of_new hw]
      have hknown : ∀ w, w ∈ store.wraps ↔ w ∈ (slice z).wrap :: r.store.wraps := by
        intro w
        rw [hws, List.mem_cons]
      rw [newcomers_congr hknown] at hrest
      rcases hrest with ⟨hnone, hwrap, -⟩ | ⟨x, hx, hwrap⟩
      · exact ⟨z, by rw [hnone]; rfl, hwrap⟩
      · exact ⟨x, by rw [List.getLast?_cons, hx]; rfl, hwrap⟩

theorem mark_le_fileAll_iff (h : r.store.Holds slice xs) (ht : Tracks slice xs r) (zs : List α) :
    r.mark ≤ (r.fileAll slice zs).mark ↔
      ∀ x, (newcomers slice r.store.wraps (r.judged slice .accepted zs)).getLast? = some x →
        r.mark.wrap ≤ (slice x).wrap := by
  rcases mark_fileAll h zs with ⟨hnone, hwrap, hbuffer⟩ | ⟨x, hx, hwrap⟩
  · rw [hnone, TimeSlice.le_def]
    refine iff_of_true (Or.inr ⟨hwrap.symm, hbuffer⟩) ?_
    intro x hx
    cases hx
  · simp only [hx, Option.some.injEq, forall_eq']
    constructor
    · intro hle
      rw [TimeSlice.le_def, hwrap] at hle
      omega
    · intro hle
      rw [TimeSlice.le_def, hwrap]
      rcases Nat.lt_or_eq_of_le hle with hlt | heq
      · exact Or.inl hlt
      · -- only an empty reassembly lacks the generation of its mark
        have hnew := (mem_of_mem_newcomers (List.mem_of_getLast? hx)).2
        rw [← heq] at hnew
        rcases ht with ⟨-, hzero⟩ | ⟨hmem, -⟩
        · rw [hzero] at heq ⊢
          exact Or.inr ⟨heq, Nat.zero_le _⟩
        · exact absurd hmem hnew

end Reassembly
end EventReadout
