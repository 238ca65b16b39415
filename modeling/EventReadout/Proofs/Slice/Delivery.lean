import EventReadout.Proofs.Slice.Residency
import Mathlib.Data.Set.Finite.Lemmas
import Mathlib.Data.Set.Finite.List

/-!
What the order of delivery decides about a batch of items.

Items of resident generations can be filed in any order. Of the others, those of one generation can
be as well, provided that the rest comes too late whether or not that generation is opened first;
in every other case two orders give two outcomes.
-/
namespace EventReadout
namespace Reassembly

variable {α : Type} {slice : α → TimeSlice} {r r' : Reassembly α} {xs ys zs : List α} {w : Nat}

theorem fileAll_append (slice : α → TimeSlice) (r : Reassembly α) (ys zs : List α) :
    r.fileAll slice (ys ++ zs) = (r.fileAll slice ys).fileAll slice zs := by
  induction ys generalizing r with
  | nil => rfl
  | cons y ys ih => exact ih _

theorem judged_append (slice : α → TimeSlice) (v : Verdict) (r : Reassembly α) (ys zs : List α) :
    r.judged slice v (ys ++ zs) =
      r.judged slice v ys ++ (r.fileAll slice ys).judged slice v zs := by
  induction ys generalizing r with
  | nil => rfl
  | cons y ys ih => rw [List.cons_append, judged, judged, fileAll, ih, List.append_assoc]

/-- The first item of a batch meets with a verdict, and the others are filed after it. -/
theorem fileAll_cons (h : r.store.Holds slice xs) (y : α) (ys : List α) :
    ∃ v r', Filed slice xs r y v r' ∧
      r'.store.Holds slice (xs ++ if v = .accepted then [y] else []) ∧
      r.fileAll slice (y :: ys) = r'.fileAll slice ys ∧
      ∀ u, r.judged slice u (y :: ys) = (if v = u then [y] else []) ++ r'.judged slice u ys :=
  ⟨_, _, file_filed h y, (file_filed h y).holds h, rfl, fun _ => rfl⟩

theorem Filed.mem_wraps {y : α} {v : Verdict} (hf : Filed slice xs r y v r') (w : Nat) :
    w ∈ r'.store.wraps ↔ w ∈ r.store.wraps ∨ v = .accepted ∧ (slice y).wrap = w := by
  cases hf with
  | outOfRange | stale => simp
  | resident hb hw hs hbuf hws =>
    rw [hws]
    constructor
    · exact Or.inl
    · rintro (hmem | ⟨-, rfl⟩)
      · exact hmem
      · exact hw
  | opening hb hw hm hs hbuf hws =>
    rw [hws]
    simp only [true_and]
    tauto

theorem mem_wraps_fileAll (h : r.store.Holds slice xs) (ys : List α) (w : Nat) :
    w ∈ (r.fileAll slice ys).store.wraps ↔
      w ∈ r.store.wraps ∨ ∃ y ∈ r.judged slice .accepted ys, (slice y).wrap = w := by
  induction ys generalizing r xs with
  | nil => simp [fileAll, judged]
  | cons y ys ih =>
    obtain ⟨v, r', hfiled, hheld, hall, hjudged⟩ := fileAll_cons h y ys
    rw [hall, hjudged, ih hheld, hfiled.mem_wraps, or_assoc]
    apply or_congr_right
    by_cases hv : v = .accepted
    · simp [hv]
    · simp [hv]

/-- The items whose generation has the buffer but is not resident. -/
def absent (slice : α → TimeSlice) (r : Reassembly α) (ys : List α) : List α :=
  ys.filter fun y => (slice y).buffer < r.store.buffers ∧ (slice y).wrap ∉ r.store.wraps

theorem mem_absent {y : α} :
    y ∈ r.absent slice ys ↔
      y ∈ ys ∧ (slice y).buffer < r.store.buffers ∧ (slice y).wrap ∉ r.store.wraps := by
  simp [absent]

theorem absent_cons_of_resident {y : α} (h : (slice y).wrap ∈ r.store.wraps) (ys : List α) :
    r.absent slice (y :: ys) = r.absent slice ys := by
  rw [absent, List.filter_cons_of_neg (by simp [h]), absent]

theorem absent_cons_of_outOfRange {y : α} (h : r.store.buffers ≤ (slice y).buffer)
    (ys : List α) : r.absent slice (y :: ys) = r.absent slice ys := by
  rw [absent, List.filter_cons_of_neg (by simp [h]), absent]

theorem absent_cons_of_absent {y : α} (hb : (slice y).buffer < r.store.buffers)
    (hw : (slice y).wrap ∉ r.store.wraps) (ys : List α) :
    r.absent slice (y :: ys) = y :: r.absent slice ys := by
  rw [absent, List.filter_cons_of_pos (by simp [hb, hw]), absent]

theorem absent_congr (hbuf : r'.store.buffers = r.store.buffers)
    (hws : r'.store.wraps = r.store.wraps) (ys : List α) :
    r'.absent slice ys = r.absent slice ys := by
  unfold absent
  rw [hbuf, hws]

theorem Filed.absent_of_absent {y z : α} {v : Verdict} (hf : Filed slice xs r y v r')
    (hz : z ∈ r'.absent slice ys) : z ∈ r.absent slice (y :: ys) := by
  rw [mem_absent] at hz ⊢
  obtain ⟨hmem, hb, hw⟩ := hz
  rw [hf.buffers] at hb
  refine ⟨List.mem_cons_of_mem y hmem, hb, fun hres => hw ?_⟩
  exact (hf.mem_wraps _).2 (Or.inl hres)

theorem absent_of_stale (h : r.store.Holds slice xs) {y : α}
    (hy : y ∈ r.judged slice .stale ys) : y ∈ r.absent slice ys := by
  induction ys generalizing r xs with
  | nil => cases hy
  | cons z zs ih =>
    obtain ⟨v, r', hfiled, hheld, -, hjudged⟩ := fileAll_cons h z zs
    rw [hjudged, List.mem_append] at hy
    rcases hy with hy | hy
    · by_cases hv : v = .stale
      · subst hv
        rw [if_pos rfl, List.mem_singleton] at hy
        subst hy
        cases hfiled with
        | stale hb hw => exact mem_absent.2 ⟨List.mem_cons_self, hb, hw⟩
      · rw [if_neg hv] at hy
        cases hy
    · exact hfiled.absent_of_absent (ih hheld hy)

/-- If nothing is opened, whatever is absent is too old for the mark. -/
theorem late_of_accepted_resident (h : r.store.Holds slice xs)
    (hnone : ∀ y ∈ r.judged slice .accepted ys, (slice y).wrap ∈ r.store.wraps) :
    ∀ y ∈ r.absent slice ys, (slice y).wrap + 1 < r.mark.wrap := by
  induction ys generalizing r xs with
  | nil => simp [absent]
  | cons z zs ih =>
    obtain ⟨v, r', hfiled, hheld, -, hjudged⟩ := fileAll_cons h z zs
    rw [hjudged] at hnone
    have hrest := fun hacc => ih (r := r') hheld hacc
    cases hfiled with
    | outOfRange hb =>
      rw [absent_cons_of_outOfRange hb]
      exact hrest hnone
    | stale hb hw hm =>
      rw [absent_cons_of_absent hb hw, List.forall_mem_cons]
      exact ⟨hm, hrest hnone⟩
    | @resident store hb hw hs hbuf hws =>
      rw [absent_cons_of_resident hw]
      have hlate := hrest fun y hy => by
        rw [hws]
        exact hnone y (List.mem_append_right _ hy)
      rw [absent_congr (r := r) hbuf hws] at hlate
      rwa [(advance_spec _ _).1] at hlate
    | opening hb hw => exact absurd (hnone z (by simp)) hw

theorem late_of_perm_stale (h : r.store.Holds slice xs)
    (hall : (r.judged slice .stale ys).Perm (r.absent slice ys)) :
    ∀ y ∈ r.absent slice ys, (slice y).wrap + 1 < r.mark.wrap := by
  apply late_of_accepted_resident h
  let p : α → Bool := fun y =>
    (slice y).buffer < r.store.buffers ∧ (slice y).wrap ∉ r.store.wraps
  have hcount := (judged_perm slice r ys).countP_eq p
  have hstale : (r.judged slice .stale ys).countP p = (r.judged slice .stale ys).length := by
    rw [List.countP_eq_length]
    intro y hy
    simpa [p] using (mem_absent.1 (absent_of_stale h hy)).2
  have habsent : ys.countP p = (r.absent slice ys).length := List.countP_eq_length_filter
  rw [List.countP_append, List.countP_append, hstale, habsent, hall.length_eq] at hcount
  have hzero : (r.judged slice .accepted ys).countP p = 0 := by omega
  intro y hy
  have hnot := List.countP_eq_zero.1 hzero y hy
  have hb := buffer_lt_of_judged h (by decide) y hy
  simpa [p, hb] using hnot

theorem absent_fileAll (h : r.store.Holds slice xs)
    (hother : ∀ y ∈ ys, ∀ z ∈ zs, (slice y).wrap ≠ (slice z).wrap) :
    (r.fileAll slice ys).absent slice zs = r.absent slice zs := by
  unfold absent
  apply List.filter_congr
  intro z hz
  rw [buffers_fileAll h, decide_eq_decide, mem_wraps_fileAll h, or_iff_left]
  rintro ⟨y, hy, hyz⟩
  exact hother y ((judged_sublist slice .accepted r ys).subset hy) z hz hyz

/-- The mark stays in its generation, or an item that was absent before takes it to its own. -/
theorem mark_wrap_fileAll (h : r.store.Holds slice xs) (ys : List α) :
    (∀ y ∈ r.judged slice .accepted ys, (slice y).wrap ∈ r.store.wraps) ∧
        (r.fileAll slice ys).mark.wrap = r.mark.wrap ∨
      ∃ y ∈ ys, (r.fileAll slice ys).mark.wrap = (slice y).wrap := by
  rcases mark_fileAll h ys with ⟨hnone, hmark, -⟩ | ⟨y, hy, hmark⟩
  · refine Or.inl ⟨fun y hy => ?_, hmark⟩
    by_contra hnew
    obtain ⟨z, hz, -⟩ := exists_newcomer hy hnew
    rw [hnone] at hz
    cases hz
  · have hacc := (mem_of_mem_newcomers (List.mem_of_getLast? hy)).1
    exact Or.inr ⟨y, (judged_sublist slice .accepted r ys).subset hacc, hmark⟩

/-- If items older than the mark leave it where it is, those that are absent are too old. -/
theorem late_of_mark_wrap_eq (h : r.store.Holds slice xs)
    (holder : ∀ y ∈ ys, (slice y).wrap < r.mark.wrap)
    (hmark : (r.fileAll slice ys).mark.wrap = r.mark.wrap) :
    ∀ y ∈ r.absent slice ys, (slice y).wrap + 1 < r.mark.wrap := by
  rcases mark_wrap_fileAll h ys with ⟨hnone, -⟩ | ⟨y, hy, hy'⟩
  · exact late_of_accepted_resident h hnone
  · have := holder y hy
    omega

/-- Of all that is absent only `w` can be opened: the rest is too old for the mark and for `w`. -/
structure OpensOnly (slice : α → TimeSlice) (w : Nat) (r : Reassembly α) (ys : List α) :
    Prop where
  near : r.mark.wrap ≤ w + 1
  late : ∀ y ∈ r.absent slice ys, (slice y).wrap ≠ w →
    (slice y).wrap + 1 < r.mark.wrap ∧ (slice y).wrap + 1 < w

theorem OpensOnly.perm (h : OpensOnly slice w r ys) (hp : ys.Perm zs) :
    OpensOnly slice w r zs := by
  refine ⟨h.near, fun y hy => h.late y ?_⟩
  exact (hp.filter _).mem_iff.2 hy

/-- What opens is the generation `w`, and then everything else is too old for the mark. -/
theorem Filed.opensOnly {y : α} {v : Verdict} (hf : Filed slice xs r y v r')
    (h : OpensOnly slice w r (y :: ys)) : OpensOnly slice w r' ys := by
  have hlate := fun z hz => h.late z (hf.absent_of_absent hz)
  cases hf with
  | outOfRange | stale => exact ⟨h.near, hlate⟩
  | resident =>
    constructor
    · rw [(advance_spec _ _).1]
      exact h.near
    · rw [(advance_spec _ _).1]
      exact hlate
  | opening hb hw hm =>
    have hopened : (slice y).wrap = w := by
      by_contra hne
      have := h.late y (mem_absent.2 ⟨List.mem_cons_self, hb, hw⟩) hne
      omega
    constructor
    · dsimp only
      omega
    · intro z hz hne
      have := hlate z hz hne
      dsimp only
      omega

/-- Stale is all that is absent but for `w`, which is opened if an item of it comes. -/
theorem OpensOnly.fileAll (ho : OpensOnly slice w r ys) (h : r.store.Holds slice xs) :
    r.judged slice .stale ys = (r.absent slice ys).filter (fun y => (slice y).wrap ≠ w) ∧
      (r.fileAll slice ys).mark.wrap =
        if ∃ y ∈ r.absent slice ys, (slice y).wrap = w then w else r.mark.wrap := by
  induction ys generalizing r xs with
  | nil => simp [judged, absent, Reassembly.fileAll]
  | cons y ys ih =>
    obtain ⟨v, r', hfiled, hheld, hall, hjudged⟩ := fileAll_cons h y ys
    obtain ⟨hstale, hmark⟩ := ih (hfiled.opensOnly ho) hheld
    rw [hall, hjudged, hstale, hmark]
    cases hfiled with
    | outOfRange hb =>
      rw [absent_cons_of_outOfRange hb]
      exact ⟨rfl, rfl⟩
    | stale hb hw hm =>
      have hne : (slice y).wrap ≠ w := by
        have := ho.near
        omega
      rw [absent_cons_of_absent hb hw]
      simp [hne]
    | @resident store hb hw hs hbuf hws =>
      rw [absent_cons_of_resident hw, absent_congr (r := r) hbuf hws, (advance_spec _ _).1]
      exact ⟨rfl, rfl⟩
    | @opening store hb hw hm hs hbuf hws =>
      have hopened : (slice y).wrap = w := by
        by_contra hne
        have := ho.late y (mem_absent.2 ⟨List.mem_cons_self, hb, hw⟩) hne
        omega
      rw [absent_cons_of_absent hb hw]
      constructor
      · -- once `w` is resident its items are no longer absent
        simp only [absent, hbuf, List.filter_filter, reduceCtorEq, if_false, List.nil_append,
          List.filter_cons, hopened, ne_eq, not_true_eq_false, decide_false, Bool.false_eq_true]
        apply List.filter_congr
        intro z _
        rw [Bool.eq_iff_iff]
        simp only [hws, hopened, Bool.and_eq_true, decide_eq_true_eq]
        tauto
      · simp [hopened]

theorem opensOnly_of_late (hlate : ∀ y ∈ r.absent slice ys, (slice y).wrap + 1 < r.mark.wrap) :
    OpensOnly slice r.mark.wrap r ys :=
  ⟨Nat.le_succ _, fun y hy _ => ⟨hlate y hy, hlate y hy⟩⟩

theorem stale_of_mark_wrap_eq (h : r.store.Holds slice xs)
    (holder : ∀ y ∈ ys, (slice y).wrap < r.mark.wrap)
    (hmark : (r.fileAll slice ys).mark.wrap = r.mark.wrap) :
    (∀ y ∈ r.absent slice ys, (slice y).wrap + 1 < r.mark.wrap) ∧
      r.judged slice .stale ys = r.absent slice ys := by
  have hlate := late_of_mark_wrap_eq h holder hmark
  refine ⟨hlate, ?_⟩
  rw [((opensOnly_of_late hlate).fileAll h).1, List.filter_eq_self]
  intro y hy
  have := holder y (mem_absent.1 hy).1
  rw [decide_eq_true_eq]
  omega

theorem opensOnly_of_same_wrap (h : ∀ y ∈ r.absent slice ys, (slice y).wrap = w) :
    ∃ w, OpensOnly slice w r ys := by
  by_cases hw : r.mark.wrap ≤ w + 1
  · exact ⟨w, hw, fun y hy hne => absurd (h y hy) hne⟩
  · refine ⟨_, opensOnly_of_late fun y hy => ?_⟩
    rw [h y hy]
    omega

theorem accepted_perm (h : r.store.Holds slice xs) (hp : ys.Perm zs)
    (hstale : (r.judged slice .stale ys).Perm (r.judged slice .stale zs)) :
    (r.judged slice .accepted ys).Perm (r.judged slice .accepted zs) := by
  have hout : (r.judged slice .outOfRange ys).Perm (r.judged slice .outOfRange zs) := by
    rw [judged_outOfRange h, judged_outOfRange h]
    exact hp.filter _
  have hall := (judged_perm slice r ys).trans (hp.trans (judged_perm slice r zs).symm)
  have hsame := hall.trans ((hstale.symm.append_left _).append hout.symm)
  rw [List.perm_append_right_iff, List.perm_append_right_iff] at hsame
  exact hsame

theorem wraps_fileAll_congr (h : r.store.Holds slice xs)
    (hacc : (r.judged slice .accepted ys).Perm (r.judged slice .accepted zs)) :
    (r.fileAll slice ys).store.wraps = (r.fileAll slice zs).store.wraps := by
  have hys := (holds_fileAll h ys).ascending
  have hzs := (holds_fileAll h zs).ascending
  have hperm : (r.fileAll slice ys).store.wraps.Perm (r.fileAll slice zs).store.wraps := by
    rw [List.perm_ext_iff_of_nodup (hys.imp Nat.ne_of_lt) (hzs.imp Nat.ne_of_lt)]
    intro w
    simp only [mem_wraps_fileAll h, hacc.mem_iff]
  apply hperm.eq_of_pairwise _ hys hzs
  intro v w _ _ hvw hwv
  omega

/-- The items held and the generation of the mark determine the mark. -/
theorem Tracks.mark_eq {xs' : List α} (h : Tracks slice xs r) (h' : Tracks slice xs' r')
    (hxs : xs.Perm xs') (hws : r.store.wraps = r'.store.wraps)
    (hwrap : r.mark.wrap = r'.mark.wrap) : r.mark = r'.mark := by
  rcases h with ⟨hnil, hzero⟩ | ⟨hres, ⟨x, hx, hxm⟩, hmax⟩
  · rcases h' with ⟨-, hzero'⟩ | ⟨hres', -⟩
    · rw [hzero, hzero']
    · rw [← hws, hnil] at hres'
      cases hres'
  · rcases h' with ⟨hnil', -⟩ | ⟨-, ⟨y, hy, hym⟩, hmax'⟩
    · rw [hws, hnil'] at hres
      cases hres
    · have hle := hmax' x (hxs.mem_iff.1 hx) (by rw [hxm, hwrap])
      have hge := hmax y (hxs.mem_iff.2 hy) (by rw [hym, hwrap])
      rw [hxm] at hle
      rw [hym] at hge
      exact TimeSlice.ext_iff.2 ⟨hwrap, Nat.le_antisymm hle hge⟩

/-- Reassemblies that differ at most in the order of the items inside a slice. -/
structure Agrees (slice : α → TimeSlice) (r r' : Reassembly α) : Prop where
  mark : r.mark = r'.mark
  wraps : r.store.wraps = r'.store.wraps
  buffers : r.store.buffers = r'.store.buffers
  held : ∃ xs xs', r.store.Holds slice xs ∧ r'.store.Holds slice xs' ∧ xs.Perm xs'

/-- As long as no more than one generation can be opened, all orders of delivery agree. -/
theorem OpensOnly.fileAll_perm (ho : OpensOnly slice w r ys) (h : r.store.Holds slice xs)
    (ht : Tracks slice xs r) (hp : ys.Perm zs) :
    (r.judged slice .stale ys).Perm (r.judged slice .stale zs) ∧
      (r.judged slice .accepted ys).Perm (r.judged slice .accepted zs) ∧
      Agrees slice (r.fileAll slice ys) (r.fileAll slice zs) := by
  obtain ⟨hstale, hmark⟩ := ho.fileAll h
  obtain ⟨hstale', hmark'⟩ := (ho.perm hp).fileAll h
  have habsent : (r.absent slice ys).Perm (r.absent slice zs) := hp.filter _
  have hstales : (r.judged slice .stale ys).Perm (r.judged slice .stale zs) := by
    rw [hstale, hstale']
    exact habsent.filter _
  have hacc := accepted_perm h hp hstales
  have hwrap : (r.fileAll slice ys).mark.wrap = (r.fileAll slice zs).mark.wrap := by
    rw [hmark, hmark']
    simp only [habsent.mem_iff]
  have hws := wraps_fileAll_congr h hacc
  have hheld := hacc.append_left xs
  have hsame := (tracks_fileAll h ht ys).mark_eq (tracks_fileAll h ht zs) hheld hws hwrap
  have hbuf := (buffers_fileAll h ys).trans (buffers_fileAll h zs).symm
  exact ⟨hstales, hacc, hsame, hws, hbuf, _, _, holds_fileAll h ys, holds_fileAll h zs, hheld⟩

namespace Agrees

theorem bucket (h : Agrees slice r r') (t : TimeSlice) :
    (r.store.bucket t).Perm (r'.store.bucket t) := by
  obtain ⟨xs, xs', hxs, hxs', hp⟩ := h.held
  rw [hxs.bucket, hxs'.bucket]
  exact hp.filter _

theorem count (h : Agrees slice r r') : r.store.count = r'.store.count := by
  obtain ⟨xs, xs', hxs, hxs', hp⟩ := h.held
  unfold SliceStore.count
  rw [hxs.toList_eq, hxs'.toList_eq]
  have hsort := (sortBySlice_perm slice xs).trans (hp.trans (sortBySlice_perm slice xs').symm)
  exact hsort.length_eq

theorem drainFinal (h : Agrees slice r r') :
    r.drainFinal.1.Perm r'.drainFinal.1 ∧ Agrees slice r.drainFinal.2 r'.drainFinal.2 := by
  obtain ⟨xs, xs', hxs, hxs', hp⟩ := h.held
  obtain ⟨hout, hkept, hws, hmark⟩ := drainFinal_eq hxs
  obtain ⟨hout', hkept', hws', hmark'⟩ := drainFinal_eq hxs'
  constructor
  · rw [hout, hout', h.mark]
    have hsort := (sortBySlice_perm slice _).trans (hp.filter fun x => r'.mark.Finalizes (slice x))
    exact hsort.trans (sortBySlice_perm slice _).symm
  · refine ⟨?_, ?_, ?_, _, _, hkept, hkept', ?_⟩
    · rw [hmark, hmark', h.mark]
    · rw [hws, hws', h.mark, h.wraps]
    · rw [buffers_drainFinal, buffers_drainFinal, h.buffers]
    · rw [h.mark]
      exact hp.filter _

/-- With the same items in the same order in every slice there is no difference. -/
theorem eq_of_bucket_eq (h : Agrees slice r r')
    (hbucket : ∀ t, r.store.bucket t = r'.store.bucket t) : r = r' := by
  obtain ⟨xs, xs', hxs, hxs', -⟩ := h.held
  have hstore : r.store = r'.store := hxs.eq_of_bucket_eq hxs' h.buffers h.wraps hbucket
  have hmark := h.mark
  cases r
  cases r'
  simp only at hstore hmark
  rw [hstore, hmark]

end Agrees

private theorem filter_eq_of_perm_of_nodup (hp : ys.Perm zs) (hnodup : (ys.map slice).Nodup)
    (t : TimeSlice) : ys.filter (slice · = t) = zs.filter (slice · = t) := by
  have hperm := hp.filter (slice · = t)
  have hsub : ((ys.filter (slice · = t)).map slice).Nodup :=
    hnodup.sublist (List.filter_sublist.map slice)
  have hall : ∀ y ∈ ys.filter (slice · = t), slice y = t := by
    intro y hy
    simpa using (List.mem_filter.1 hy).2
  generalize ys.filter (slice · = t) = us at hperm hsub hall
  match us, hall, hsub with
  | [], _, _ => exact (List.nil_perm.1 hperm).symm
  | [u], _, _ => exact List.singleton_perm.1 hperm
  | u :: v :: _, hall, hsub =>
    have hu := hall u (by simp)
    have hv := hall v (by simp)
    simp [hu, hv] at hsub

theorem OpensOnly.fileAll_eq_of_nodup (ho : OpensOnly slice w r ys)
    (h : r.store.Holds slice xs) (ht : Tracks slice xs r) (hp : ys.Perm zs)
    (hnodup : (ys.map slice).Nodup) : r.fileAll slice ys = r.fileAll slice zs := by
  obtain ⟨-, hacc, hagrees⟩ := ho.fileAll_perm h ht hp
  apply hagrees.eq_of_bucket_eq
  intro t
  rw [bucket_fileAll h, bucket_fileAll h]
  congr 1
  have hsub := (judged_sublist slice .accepted r ys).map slice
  exact filter_eq_of_perm_of_nodup hacc (hnodup.sublist hsub) t

section Newest

variable (hnewest : ∀ y ∈ r.absent slice ys, (slice y).wrap ≤ w)
include hnewest

/-- Of the items no older than the newest absent generation, none comes too late. -/
private theorem fileAll_newest {q : Reassembly α} (h : q.store.Holds slice xs)
    (hnear : q.mark.wrap ≤ w + 1) (hbuf : q.store.buffers = r.store.buffers)
    (hsub : ∀ v ∈ r.store.wraps, v ∈ q.store.wraps) (hw : w ∉ q.store.wraps)
    (hopen : ∃ y ∈ r.absent slice ys, (slice y).wrap = w) :
    q.judged slice .stale (ys.filter fun y => w ≤ (slice y).wrap) = [] ∧
      (q.fileAll slice (ys.filter fun y => w ≤ (slice y).wrap)).mark.wrap = w := by
  have hall : ∀ y ∈ q.absent slice (ys.filter fun y => w ≤ (slice y).wrap),
      (slice y).wrap = w := by
    intro y hy
    rw [mem_absent, List.mem_filter, hbuf] at hy
    obtain ⟨⟨hmem, hle⟩, hb, hnot⟩ := hy
    have hle' := hnewest y (mem_absent.2 ⟨hmem, hb, fun hres => hnot (hsub _ hres)⟩)
    have hle : w ≤ (slice y).wrap := by simpa using hle
    omega
  have ho : OpensOnly slice w q (ys.filter fun y => w ≤ (slice y).wrap) :=
    ⟨hnear, fun y hy hne => absurd (hall y hy) hne⟩
  obtain ⟨hstale, hmark⟩ := ho.fileAll h
  constructor
  · rw [hstale, List.filter_eq_nil_iff]
    simpa using hall
  · obtain ⟨y, hy, rfl⟩ := hopen
    obtain ⟨hmem, hb, -⟩ := mem_absent.1 hy
    rw [hmark, if_pos]
    refine ⟨y, mem_absent.2 ⟨List.mem_filter.2 ⟨hmem, by simp⟩, ?_, hw⟩, rfl⟩
    rwa [hbuf]

private theorem fileAll_newest_last (h : r.store.Holds slice xs) (hnear : r.mark.wrap ≤ w + 1)
    (hopen : ∃ y ∈ r.absent slice ys, (slice y).wrap = w) {lo : List α}
    (hlo : ∀ y ∈ lo, (slice y).wrap < w) :
    (r.fileAll slice lo).judged slice .stale (ys.filter fun y => w ≤ (slice y).wrap) = [] ∧
      ((r.fileAll slice lo).fileAll slice (ys.filter fun y => w ≤ (slice y).wrap)).mark.wrap =
        w := by
  have hlast_near : (r.fileAll slice lo).mark.wrap ≤ w + 1 := by
    rcases mark_wrap_fileAll h lo with ⟨-, hmark⟩ | ⟨y, hy, hmark⟩
    · omega
    · have := hlo y hy
      omega
  have hlast_absent : w ∉ (r.fileAll slice lo).store.wraps := by
    rw [mem_wraps_fileAll h]
    rintro (hres | ⟨y, hy, hyw⟩)
    · obtain ⟨z, hz, rfl⟩ := hopen
      exact (mem_absent.1 hz).2.2 hres
    · have := hlo y ((judged_sublist slice .accepted r lo).subset hy)
      omega
  have hkept : ∀ v ∈ r.store.wraps, v ∈ (r.fileAll slice lo).store.wraps := fun v hv =>
    (mem_wraps_fileAll h lo v).2 (Or.inl hv)
  exact fileAll_newest hnewest (holds_fileAll h lo) hlast_near (buffers_fileAll h lo) hkept
    hlast_absent hopen

/-- If it is no matter whether the newest absent generation comes first or last, no other one can
be opened. -/
private theorem opensOnly_of_newest (h : r.store.Holds slice xs) (hnear : r.mark.wrap ≤ w + 1)
    (hopen : ∃ y ∈ r.absent slice ys, (slice y).wrap = w)
    (hsame : ∀ us vs, us.Perm ys → vs.Perm ys →
      (r.judged slice .stale us).Perm (r.judged slice .stale vs) ∧
        (r.fileAll slice us).mark.wrap = (r.fileAll slice vs).mark.wrap) :
    OpensOnly slice w r ys := by
  let hi := ys.filter fun y => w ≤ (slice y).wrap
  let lo := ys.filter fun y => !decide (w ≤ (slice y).wrap)
  have hlo : ∀ y ∈ lo, (slice y).wrap < w := by
    intro y hy
    simpa [lo] using (List.mem_filter.1 hy).2
  have hlohi : ∀ y ∈ hi, ∀ z ∈ lo, (slice y).wrap ≠ (slice z).wrap := by
    intro y hy z hz
    have hle : w ≤ (slice y).wrap := by simpa [hi] using (List.mem_filter.1 hy).2
    have := hlo z hz
    omega
  have hperm : (hi ++ lo).Perm ys := List.filter_append_perm _ ys
  obtain ⟨hstales, hmarks⟩ := hsame _ _ hperm (List.perm_append_comm.trans hperm)
  simp only [judged_append, fileAll_append] at hstales hmarks
  have hw : w ∉ r.store.wraps := by
    obtain ⟨y, hy, rfl⟩ := hopen
    exact (mem_absent.1 hy).2.2
  obtain ⟨hlast_stale, hlast_mark⟩ := fileAll_newest_last hnewest h hnear hopen hlo
  obtain ⟨hfirst_stale, hfirst_mark⟩ :=
    fileAll_newest hnewest h hnear rfl (fun v hv => hv) hw hopen
  -- with the newest generation first, the older items have to leave the mark where it is
  obtain ⟨hlate, hrest_stale⟩ := stale_of_mark_wrap_eq (holds_fileAll h hi)
    (by rwa [hfirst_mark]) (by rw [hfirst_mark, hmarks, hlast_mark])
  rw [absent_fileAll h hlohi] at hlate hrest_stale
  rw [hfirst_stale, hlast_stale, hrest_stale, List.nil_append, List.append_nil] at hstales
  have hlate_mark := late_of_perm_stale h hstales.symm
  rw [hfirst_mark] at hlate
  refine ⟨hnear, fun y hy hne => ?_⟩
  obtain ⟨hmem, hrest⟩ := mem_absent.1 hy
  have hyw := hnewest y hy
  have hylo : y ∈ r.absent slice lo := by
    refine mem_absent.2 ⟨List.mem_filter.2 ⟨hmem, ?_⟩, hrest⟩
    simp only [Bool.not_eq_true', decide_eq_false_iff_not]
    omega
  exact ⟨hlate_mark y hylo, hlate y hylo⟩

end Newest

/-- Orders of delivery agree only if no more than one generation can be opened. -/
theorem exists_opensOnly_of_same (h : r.store.Holds slice xs)
    (hsame : ∀ us vs, us.Perm ys → vs.Perm ys →
      (r.judged slice .stale us).Perm (r.judged slice .stale vs) ∧
        (r.fileAll slice us).mark.wrap = (r.fileAll slice vs).mark.wrap) :
    ∃ w, OpensOnly slice w r ys := by
  by_cases hnear : ∃ y ∈ r.absent slice ys, r.mark.wrap ≤ (slice y).wrap + 1
  · obtain ⟨y, hy, hym⟩ := hnear
    obtain ⟨x, hx, hmax⟩ := Set.exists_max_image {z | z ∈ r.absent slice ys}
      (fun z => (slice z).wrap) (List.finite_toSet _) ⟨y, hy⟩
    have hyx := hmax y hy
    exact ⟨_, opensOnly_of_newest hmax h (by omega) ⟨x, hx, rfl⟩ hsame⟩
  · push Not at hnear
    exact ⟨_, opensOnly_of_late hnear⟩

end Reassembly
end EventReadout
