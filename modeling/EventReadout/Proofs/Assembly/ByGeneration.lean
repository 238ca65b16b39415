import EventReadout.Proofs.Assembly.Watermark
import Mathlib.Data.List.Chain

/-!
Acquisitions whose frames carry one generation each, the next frame the next generation.

What is written is ordered by generation. A frame makes one buffer of the frame before it final,
the one of its own highest buffer; the rest of that frame follows only later, in order.
-/
namespace EventReadout

section Emission

variable {α : Type} {slice : α → TimeSlice}

/-- The highest buffer that occurs. -/
def topBuffer (slice : α → TimeSlice) (xs : List α) : Option Nat :=
  (xs.map fun x => (slice x).buffer).max?

theorem topBuffer_eq_some_iff {xs : List α} {b : Nat} :
    topBuffer slice xs = some b ↔
      (∃ x ∈ xs, (slice x).buffer = b) ∧ ∀ x ∈ xs, (slice x).buffer ≤ b := by
  rw [topBuffer, List.max?_eq_some_iff]
  simp

/-- The order in which a frame is written when `next` comes after it. -/
def block (slice : α → TimeSlice) (xs next : List α) : List α :=
  (xs.filter fun x => some (slice x).buffer = topBuffer slice next) ++
    sortBySlice slice (xs.filter fun x => some (slice x).buffer ≠ topBuffer slice next)

def emission (slice : α → TimeSlice) : List (List α) → List α
  | [] => []
  | xs :: rest => block slice xs (rest.headD []) ++ emission slice rest

/-- Where the highest buffer of `next` occurs, it is the lowest one. -/
def InTime (slice : α → TimeSlice) (xs next : List α) : Prop :=
  ∀ x ∈ xs, some (slice x).buffer = topBuffer slice next →
    ∀ y ∈ xs, (slice x).buffer ≤ (slice y).buffer

instance (xs next : List α) : Decidable (InTime slice xs next) :=
  inferInstanceAs (Decidable (∀ x ∈ xs, _ → ∀ y ∈ xs, _))

theorem topBuffer_congr {xs ys : List α} (h : xs.Perm ys) :
    topBuffer slice xs = topBuffer slice ys := by
  refine Option.ext fun b => ?_
  rw [topBuffer_eq_some_iff, topBuffer_eq_some_iff]
  simp only [h.mem_iff]

/-- The order in which the packets of a frame arrive does not matter. -/
theorem inTime_congr {xs xs' ys ys' : List α} (hx : xs.Perm xs') (hy : ys.Perm ys') :
    InTime slice xs ys ↔ InTime slice xs' ys' := by
  unfold InTime
  rw [topBuffer_congr hy]
  simp only [hx.mem_iff]

@[simp] theorem mem_block {xs next : List α} {x : α} : x ∈ block slice xs next ↔ x ∈ xs := by
  simp only [block, List.mem_append, mem_sortBySlice, List.mem_filter, decide_eq_true_eq]
  tauto

theorem mem_emission {xss : List (List α)} {x : α} :
    x ∈ emission slice xss ↔ ∃ xs ∈ xss, x ∈ xs := by
  induction xss with
  | nil => simp [emission]
  | cons xs rest ih => simp [emission, ih]

theorem block_nil (xs : List α) : block slice xs [] = sortBySlice slice xs := by
  simp [block, topBuffer]

theorem emission_singleton (xs : List α) : emission slice [xs] = sortBySlice slice xs := by
  rw [emission, emission, List.append_nil]
  exact block_nil xs

theorem emission_cons_cons (xs ys : List α) (rest : List (List α)) :
    emission slice (xs :: ys :: rest) = block slice xs ys ++ emission slice (ys :: rest) := rfl

/-- Inside one generation a block is in order exactly if it is in time for the next frame. -/
theorem pairwise_block_iff {xs next : List α} {k : Nat} (h : ∀ x ∈ xs, (slice x).wrap = k) :
    (block slice xs next).Pairwise (fun x y => slice x ≤ slice y) ↔ InTime slice xs next := by
  have hle {x y : α} (hx : x ∈ xs) (hy : y ∈ xs) :
      slice x ≤ slice y ↔ (slice x).buffer ≤ (slice y).buffer := by
    rw [TimeSlice.le_def, h x hx, h y hy]
    omega
  rw [block, List.pairwise_append]
  constructor
  · rintro ⟨-, -, hcross⟩ x hx htop y hy
    by_cases hxy : (slice y).buffer = (slice x).buffer
    · exact Nat.le_of_eq hxy.symm
    · rw [← hle hx hy]
      refine hcross x (List.mem_filter.2 ⟨hx, by simpa using htop⟩) y ?_
      rw [mem_sortBySlice, List.mem_filter, ← htop]
      exact ⟨hy, by simpa using hxy⟩
  · intro hin
    have hfirst : ∀ x ∈ xs.filter (fun x => some (slice x).buffer = topBuffer slice next),
        ∀ y ∈ xs, slice x ≤ slice y := by
      intro x hx y hy
      have hx := List.mem_filter.1 hx
      rw [hle hx.1 hy]
      exact hin x hx.1 (by simpa using hx.2) y hy
    refine ⟨?_, pairwise_sortBySlice _, ?_⟩
    · apply List.pairwise_of_forall_mem_list
      intro x hx y hy
      exact hfirst x hx y (List.mem_filter.1 hy).1
    · intro x hx y hy
      rw [mem_sortBySlice] at hy
      exact hfirst x hx y (List.mem_filter.1 hy).1

theorem wrap_lt_of_mem_emission {xs : List α} {rest : List (List α)} {k : Nat}
    (h : ∀ p ∈ (xs :: rest).zipIdx k, ∀ x ∈ p.1, (slice x).wrap = p.2) :
    (∀ x ∈ xs, (slice x).wrap = k) ∧ ∀ y ∈ emission slice rest, k < (slice y).wrap := by
  rw [List.zipIdx_cons] at h
  refine ⟨h (xs, k) (by simp), ?_⟩
  intro y hy
  obtain ⟨ys, hys, hy⟩ := mem_emission.1 hy
  obtain ⟨i, hi, rfl⟩ := List.getElem_of_mem hys
  have hmem : (rest[i], k + 1 + i) ∈ rest.zipIdx (k + 1) := by
    rw [List.mk_mem_zipIdx_iff_le_and_getElem?_sub]
    refine ⟨by omega, ?_⟩
    rw [Nat.add_sub_cancel_left, List.getElem?_eq_getElem hi]
  rw [h _ (List.mem_cons_of_mem _ hmem) y hy]
  dsimp only
  omega

theorem pairwise_emission_wrap {xss : List (List α)} {k : Nat}
    (h : ∀ p ∈ xss.zipIdx k, ∀ x ∈ p.1, (slice x).wrap = p.2) :
    (emission slice xss).Pairwise fun x y => (slice x).wrap ≤ (slice y).wrap := by
  induction xss generalizing k with
  | nil => exact .nil
  | cons xs rest ih =>
    obtain ⟨hxs, hrest⟩ := wrap_lt_of_mem_emission h
    rw [List.zipIdx_cons] at h
    rw [emission, List.pairwise_append]
    refine ⟨?_, ih fun p hp => h p (List.mem_cons_of_mem _ hp), ?_⟩
    · apply List.pairwise_of_forall_mem_list
      intro x hx y hy
      rw [hxs x (mem_block.1 hx), hxs y (mem_block.1 hy)]
    · intro x hx y hy
      have := hrest y hy
      rw [hxs x (mem_block.1 hx)]
      omega

theorem pairwise_emission_iff {xss : List (List α)} {k : Nat}
    (h : ∀ p ∈ xss.zipIdx k, ∀ x ∈ p.1, (slice x).wrap = p.2) :
    (emission slice xss).Pairwise (fun x y => slice x ≤ slice y) ↔
      xss.IsChain (InTime slice) := by
  induction xss generalizing k with
  | nil => simp [emission]
  | cons xs rest ih =>
    obtain ⟨hxs, hrest⟩ := wrap_lt_of_mem_emission h
    rw [List.zipIdx_cons] at h
    have hcross : ∀ x ∈ block slice xs (rest.headD []), ∀ y ∈ emission slice rest,
        slice x ≤ slice y := by
      intro x hx y hy
      have := hrest y hy
      rw [TimeSlice.le_def, hxs x (mem_block.1 hx)]
      exact Or.inl this
    rw [emission, List.pairwise_append, pairwise_block_iff hxs,
      ih fun p hp => h p (List.mem_cons_of_mem _ hp)]
    cases rest with
    | nil =>
      have hlast : InTime slice xs [] := by
        intro x hx htop
        simp [topBuffer] at htop
      simpa [emission] using hlast
    | cons ys rest =>
      rw [List.isChain_cons_cons]
      constructor
      · rintro ⟨hin, hchain, -⟩
        exact ⟨hin, hchain⟩
      · rintro ⟨hin, hchain⟩
        exact ⟨hin, hchain, hcross⟩

end Emission

namespace Reassembly

variable {α : Type} {slice : α → TimeSlice} {r : Reassembly α} {xs old last : List α}

/-- Generation `k` comes next: `last` is what came for the one before it, `old` is older. -/
structure Awaits (slice : α → TimeSlice) (k : Nat) (old last : List α) (r : Reassembly α) :
    Prop where
  holds : r.store.Holds slice (old ++ last)
  tracks : Tracks slice (old ++ last) r
  old_wrap : ∀ x ∈ old, (slice x).wrap + 1 < k
  last_wrap : ∀ x ∈ last, (slice x).wrap + 1 = k
  wraps_lt : ∀ w ∈ r.store.wraps, w < k
  mark_le : r.mark.wrap ≤ k
  pending : ∀ x ∈ old ++ last, ¬ r.mark.Finalizes (slice x)

theorem awaits_start (slice : α → TimeSlice) (buffers : Nat) :
    Awaits slice 0 [] [] ({ store := { buffers } } : Reassembly α) where
  holds := .empty _
  tracks := Or.inl ⟨rfl, rfl⟩
  old_wrap x hx := by cases hx
  last_wrap x hx := by cases hx
  wraps_lt w hw := by cases hw
  mark_le := Nat.le_refl _
  pending x hx := by cases hx

theorem Awaits.wrap_lt {k : Nat} (h : Awaits slice k old last r) :
    ∀ x ∈ old ++ last, (slice x).wrap < k := by
  intro x hx
  rcases List.mem_append.1 hx with hx | hx
  · have := h.old_wrap x hx
    omega
  · have := h.last_wrap x hx
    omega

theorem Awaits.old_le_last {k : Nat} (h : Awaits slice k old last r) :
    ∀ x ∈ old, ∀ y ∈ last, slice x ≤ slice y := by
  intro x hx y hy
  have := h.old_wrap x hx
  have := h.last_wrap y hy
  rw [TimeSlice.le_def]
  omega

theorem Awaits.skip {k : Nat} (h : Awaits slice k old last r) :
    r.drainFinal.1 = [] ∧ Awaits slice (k + 1) (old ++ last) [] r.drainFinal.2 := by
  obtain ⟨-, -, hwraps, hmark⟩ := drainFinal_eq h.holds
  obtain ⟨hout, hkept⟩ := drainFinal_of_pending h.holds h.pending
  have htracks := (settled_drainFinal h.holds h.tracks).tracks hkept
  refine ⟨hout, ?_⟩
  constructor
  · rw [List.append_nil]
    exact hkept
  · rw [List.append_nil]
    exact htracks
  · intro x hx
    have := h.wrap_lt x hx
    omega
  · simp
  · intro w hw
    rw [hwraps] at hw
    have := h.wraps_lt w (List.mem_filter.1 hw).1
    omega
  · rw [hmark]
    have := h.mark_le
    omega
  · rw [hmark, List.append_nil]
    exact h.pending

theorem topBuffer_of_tracks {ys : List α} (h : r.store.Holds slice (xs ++ ys))
    (ht : Tracks slice (xs ++ ys) r) (hxs : ∀ x ∈ xs, (slice x).wrap < r.mark.wrap)
    (hys : ∀ y ∈ ys, (slice y).wrap = r.mark.wrap) (hne : ys ≠ []) :
    topBuffer slice ys = some r.mark.buffer := by
  obtain ⟨⟨x, hx, hxm⟩, hmax⟩ := ht.of_ne_nil h (List.append_ne_nil_of_right_ne_nil xs hne)
  rw [topBuffer_eq_some_iff]
  constructor
  · rcases List.mem_append.1 hx with hx | hx
    · have := hxs x hx
      rw [hxm] at this
      omega
    · exact ⟨x, hx, by rw [hxm]⟩
  · intro y hy
    exact hmax y (List.mem_append_right _ hy) (hys y hy)

/-- A filter that takes a first part, some of a second and none of a third. -/
private theorem filter_parts {p q : α → Prop} [DecidablePred p] [DecidablePred q]
    {ys zs : List α} (hxs : ∀ x ∈ xs, p x) (hys : ∀ y ∈ ys, (p y ↔ q y)) (hzs : ∀ z ∈ zs, ¬ p z) :
    (xs ++ ys ++ zs).filter (fun x => p x) = xs ++ ys.filter (fun x => q x) ∧
      (xs ++ ys ++ zs).filter (fun x => ¬ p x) = ys.filter (fun x => ¬ q x) ++ zs := by
  have htake : ys.filter (fun x => p x) = ys.filter fun x => q x :=
    List.filter_congr fun y hy => by simp [hys y hy]
  have hkeep : ys.filter (fun x => ¬ p x) = ys.filter fun x => ¬ q x :=
    List.filter_congr fun y hy => by simp [hys y hy]
  have hfirst : xs.filter (fun x => p x) = xs := List.filter_eq_self.2 (by simpa using hxs)
  have hfirst' : xs.filter (fun x => ¬ p x) = [] := List.filter_eq_nil_iff.2 (by simpa using hxs)
  have hthird : zs.filter (fun x => p x) = [] := List.filter_eq_nil_iff.2 (by simpa using hzs)
  have hthird' : zs.filter (fun x => ¬ p x) = zs := List.filter_eq_self.2 (by simpa using hzs)
  rw [List.filter_append, List.filter_append, htake, hfirst, hthird, List.append_nil,
    List.filter_append, List.filter_append, hkeep, hfirst', hthird', List.nil_append]
  exact ⟨rfl, rfl⟩

/-- A mark at the highest buffer of the next frame makes one buffer of the last frame final. -/
theorem Awaits.filter_finalizes {k : Nat} (h : Awaits slice k old last r) {m : TimeSlice}
    (hm : m.wrap = k) {ys : List α} (hys : ∀ y ∈ ys, (slice y).wrap = k)
    (htop : topBuffer slice ys = some m.buffer) :
    ((old ++ last ++ ys).filter fun x => m.Finalizes (slice x)) =
        old ++ last.filter (fun x => some (slice x).buffer = topBuffer slice ys) ∧
      ((old ++ last ++ ys).filter fun x => ¬ m.Finalizes (slice x)) =
        last.filter (fun x => some (slice x).buffer ≠ topBuffer slice ys) ++ ys := by
  apply filter_parts
  · intro x hx
    rw [TimeSlice.finalizes_def, hm]
    exact Or.inl (h.old_wrap x hx)
  · intro x hx
    have := h.last_wrap x hx
    rw [TimeSlice.finalizes_def, hm, htop, Option.some.injEq]
    omega
  · intro y hy
    rw [TimeSlice.finalizes_def, hm, hys y hy]
    omega

theorem Awaits.sortBySlice_final {k : Nat} (h : Awaits slice k old last r) (ys : List α) :
    sortBySlice slice
        (old ++ last.filter fun x => some (slice x).buffer = topBuffer slice ys) =
      sortBySlice slice old ++
        last.filter fun x => some (slice x).buffer = topBuffer slice ys := by
  rw [sortBySlice_append fun x hx y hy => h.old_le_last x hx y (List.mem_filter.1 hy).1]
  congr 1
  apply sortBySlice_of_pairwise
  -- these are all of one slice
  apply List.pairwise_of_forall_mem_list
  intro x hx y hy
  have hx := List.mem_filter.1 hx
  have hy := List.mem_filter.1 hy
  have hbx : some (slice x).buffer = topBuffer slice ys := by simpa using hx.2
  have hby : some (slice y).buffer = topBuffer slice ys := by simpa using hy.2
  rw [← hby, Option.some.injEq] at hbx
  have := h.last_wrap x hx.1
  have := h.last_wrap y hy.1
  rw [TimeSlice.le_def]
  omega

/-- A frame of the next generation writes what is older, and of the last frame one buffer. -/
theorem Awaits.deliver {k : Nat} (h : Awaits slice k old last r) {ys : List α}
    (hys : ∀ y ∈ ys, (slice y).wrap = k ∧ (slice y).buffer < r.store.buffers) (hne : ys ≠ []) :
    (r.fileAll slice ys).drainFinal.1 = sortBySlice slice old ++
        last.filter (fun x => some (slice x).buffer = topBuffer slice ys) ∧
      Awaits slice (k + 1) (last.filter fun x => some (slice x).buffer ≠ topBuffer slice ys) ys
        (r.fileAll slice ys).drainFinal.2 := by
  have hys_wrap : ∀ y ∈ ys, (slice y).wrap = k := fun y hy => (hys y hy).1
  have hnew : k ∉ r.store.wraps := fun hk => Nat.lt_irrefl k (h.wraps_lt k hk)
  have hmark_le := h.mark_le
  obtain ⟨hacc, hwrap, hwraps⟩ := fileAll_generation h.holds (Or.inl ⟨hnew, by omega⟩) hys hne
  have hheld := holds_fileAll h.holds ys
  have htracks := tracks_fileAll h.holds h.tracks ys
  rw [hacc] at hheld htracks
  generalize r.fileAll slice ys = q at *
  have htop := topBuffer_of_tracks hheld htracks (by rw [hwrap]; exact h.wrap_lt)
    (fun y hy => by rw [hwrap, hys_wrap y hy]) hne
  obtain ⟨hfinal, hrest⟩ := h.filter_finalizes hwrap hys_wrap htop
  obtain ⟨hout, hkept, hwraps', hmark⟩ := drainFinal_eq hheld
  have hpending : ∀ x ∈ (old ++ last ++ ys).filter (fun x => ¬ q.mark.Finalizes (slice x)),
      ¬ q.mark.Finalizes (slice x) := fun x hx => by simpa using (List.mem_filter.1 hx).2
  have htracks' := (settled_drainFinal hheld htracks).tracks hkept
  rw [hfinal, h.sortBySlice_final] at hout
  rw [hrest] at hkept hpending htracks'
  refine ⟨hout, hkept, htracks', ?_, ?_, ?_, ?_, ?_⟩
  · intro x hx
    have := h.last_wrap x (List.mem_filter.1 hx).1
    omega
  · intro y hy
    rw [hys_wrap y hy]
  · intro w hw
    rw [hwraps'] at hw
    rcases hwraps w (List.mem_filter.1 hw).1 with rfl | hw
    · exact Nat.lt_succ_self _
    · have := h.wraps_lt w hw
      omega
  · rw [hmark, hwrap]
    omega
  · rw [hmark]
    exact hpending

end Reassembly

/-- The standard frames among calls. -/
def standardFrames (c : Config) (calls : List Call) : List Call := calls.filter (Call.Standard c)

/-- No idle frame, and standard frame number `i`, counted from `first`, carries generation `i`. -/
structure ByGeneration (c : Config) (first : Nat) (calls : List Call) : Prop where
  notClosing : ∀ call ∈ calls, ¬ call.Closing c
  slices : ∀ p ∈ (standardFrames c calls).zipIdx first, ∀ j ∈ p.1.jobs c,
    j.slice.wrap = p.2 ∧ j.slice.buffer < c.sliceBuffers

namespace ByGeneration

variable {c : Config} {first : Nat} {call : Call} {calls : List Call}

theorem of_quiet (h : ByGeneration c first (call :: calls)) (hs : ¬ call.Standard c) :
    ByGeneration c first calls ∧ standardFrames c (call :: calls) = standardFrames c calls := by
  have hframes : standardFrames c (call :: calls) = standardFrames c calls := by
    rw [standardFrames, List.filter_cons, if_neg (by simpa using hs), standardFrames]
  refine ⟨⟨fun k hk => h.notClosing k (List.mem_cons_of_mem _ hk), ?_⟩, hframes⟩
  rw [← hframes]
  exact h.slices

theorem of_standard (h : ByGeneration c first (call :: calls)) (hs : call.Standard c) :
    ByGeneration c (first + 1) calls ∧
      standardFrames c (call :: calls) = call :: standardFrames c calls ∧
      ∀ j ∈ call.jobs c, j.slice.wrap = first ∧ j.slice.buffer < c.sliceBuffers := by
  have hframes : standardFrames c (call :: calls) = call :: standardFrames c calls := by
    rw [standardFrames, List.filter_cons, if_pos (by simpa using hs), standardFrames]
  have hslices := h.slices
  rw [hframes, List.zipIdx_cons] at hslices
  refine ⟨⟨fun k hk => h.notClosing k (List.mem_cons_of_mem _ hk), ?_⟩, hframes, ?_⟩
  · exact fun p hp => hslices p (List.mem_cons_of_mem _ hp)
  · exact hslices (call, first) (by simp)

end ByGeneration

namespace Assembler

theorem run_emission {c : Config} {a : Assembler} (ha : a.Consistent c) {k : Nat}
    {old last : List Job} (hr : a.reassembly.Awaits Job.slice k old last) {calls : List Call}
    (h : ByGeneration c k calls) {idle : Call} (hidle : idle.Closing c) :
    (a.run (calls ++ [idle])).1.written = sortBySlice Job.slice old ++
      emission Job.slice (last :: (standardFrames c calls).map (Call.results c)) := by
  induction calls generalizing a k old last with
  | nil =>
    rw [List.nil_append, run_singleton]
    obtain ⟨hw, -, -⟩ := (step_spec ha idle).1.of_closing hidle
    rw [hw, Reassembly.finish_eq hr.holds, sortBySlice_append hr.old_le_last]
    change _ = _ ++ emission Job.slice [last]
    rw [emission_singleton]
  | cons call calls ih =>
    obtain ⟨heffect, -, hstep⟩ := step_spec ha call
    rw [List.cons_append, run, Report.written_append]
    cases heffect with
    | quiet hs _ _ hw hb =>
      obtain ⟨hrest, hframes⟩ := h.of_quiet hs
      rw [← hb] at hr
      rw [hw, List.nil_append, hframes, ih hstep hr hrest]
    | closing hcl => exact absurd hcl (h.notClosing call (by simp))
    | standard hs _ _ _ hw hb =>
      obtain ⟨hrest, hframes, hslices⟩ := h.of_standard hs
      have hresults : ∀ j ∈ call.results c,
          j.slice.wrap = k ∧ j.slice.buffer < a.reassembly.store.buffers := by
        intro j hj
        rw [ha.buffers]
        exact hslices j ((Call.results_perm c call).mem_iff.1 hj)
      rw [hframes, List.map_cons, hw]
      generalize call.results c = results at *
      cases results with
      | nil =>
        obtain ⟨hnone, hskip⟩ := hr.skip
        change _ = (a.reassembly.drainFinal).2 at hb
        rw [← hb] at hskip
        rw [ih hstep hskip hrest]
        change a.reassembly.drainFinal.1 ++ _ = _
        rw [hnone, List.nil_append, emission_cons_cons last, block_nil,
          sortBySlice_append hr.old_le_last, List.append_assoc]
      | cons j js =>
        obtain ⟨hout, hnext⟩ := hr.deliver hresults (by simp)
        rw [← hb] at hnext
        rw [ih hstep hnext hrest, hout, emission_cons_cons, block, List.append_assoc,
          List.append_assoc]

/--
Over an acquisition of one generation per frame everything is written in the order of its
generation; it is in the order of its slice exactly if every frame is in time for the next.
-/
theorem written_in_time_order_iff {c : Config} {a : Assembler} (ha : a.Ready c)
    {calls : List Call} (h : ByGeneration c 0 calls) {idle : Call} (hidle : idle.Closing c) :
    let written := (a.run (calls ++ [idle])).1.written
    (written.Pairwise fun j k => j.slice.wrap ≤ k.slice.wrap) ∧
      ((written.Pairwise fun j k => j.slice ≤ k.slice) ↔
        (standardFrames c calls).IsChain fun f g => InTime Job.slice (f.jobs c) (g.jobs c)) := by
  have hr := Reassembly.awaits_start Job.slice c.sliceBuffers
  rw [← ha.reassembly_eq.1] at hr
  have hwritten := run_emission ha.reachable.consistent hr h hidle
  have hstart : (a.run (calls ++ [idle])).1.written =
      emission Job.slice ((standardFrames c calls).map (Call.results c)) := by
    rw [hwritten, emission, sortBySlice_of_pairwise .nil]
    simp [block, sortBySlice_of_pairwise]
  have hwraps : ∀ p ∈ ((standardFrames c calls).map (Call.results c)).zipIdx 0, ∀ j ∈ p.1,
      j.slice.wrap = p.2 := by
    intro p hp j hj
    rw [List.zipIdx_map, List.mem_map] at hp
    obtain ⟨⟨call, i⟩, hmem, rfl⟩ := hp
    exact (h.slices _ hmem j ((Call.results_perm c call).mem_iff.1 hj)).1
  dsimp only
  rw [hstart, pairwise_emission_iff hwraps, List.isChain_map]
  refine ⟨pairwise_emission_wrap hwraps, ?_⟩
  simp only [inTime_congr (Call.results_perm c _) (Call.results_perm c _)]

/-- One buffer of a frame overtakes a lower one if the next frame brings both to an end. -/
theorem skipped_buffer_written_late :
    ∃ a, ofConfig .small = .ok a ∧
      let calls := [Call.sample [⟨0, 0⟩, ⟨0, 1⟩], .sample [⟨1, 1⟩]]
      let written := (a.run (calls ++ [.idle])).1.written
      ByGeneration .small 0 calls ∧ Call.idle.Closing .small ∧
        written.map Job.slice = [⟨0, 1⟩, ⟨0, 0⟩, ⟨1, 1⟩] ∧
        ¬ written.Pairwise fun j k => j.slice ≤ k.slice :=
  ⟨_, rfl, ⟨by decide +kernel, by decide +kernel⟩, by decide +kernel⟩

theorem written_in_time_order_when_lowest_first :
    ∃ a, ofConfig .small = .ok a ∧
      let calls := [Call.sample [⟨0, 1⟩, ⟨0, 0⟩], .sample [⟨1, 0⟩], .sample [⟨2, 1⟩]]
      (a.run (calls ++ [.idle])).1.written.Pairwise fun j k => j.slice ≤ k.slice := by
  refine ⟨_, rfl, ?_⟩
  have horder : ByGeneration .small 0
      [.sample [⟨0, 1⟩, ⟨0, 0⟩], .sample [⟨1, 0⟩], .sample [⟨2, 1⟩]] :=
    ⟨by decide +kernel, by decide +kernel⟩
  have hclosing : Call.idle.Closing .small := by decide +kernel
  exact (written_in_time_order_iff (.start rfl) horder hclosing).2.2 (by decide +kernel)

end Assembler
end EventReadout
